import RioBuild.Retry.Ledger

universe u

namespace RioBuild.Retry

variable {Id : Type u}

def ChannelFree (r : LedgerRow Id) : Prop :=
  r.kind = .build ∧ r.eventKind = .attempt ∧
    (r.outcomeClass = .timeout ∨ (r.outcomeClass = .exemptInfra ∧ r.floorAtCap = false))

inductive SameObservation : LedgerRow Id → LedgerRow Id → Prop
  | same (r) : SameObservation r r
  | reported {r} (party) : ChannelFree r → SameObservation r { r with reportingParty := party }

theorem initialCounters_channel (hre : List.Forall₂ SameObservation h h') :
    initialCounters h' = initialCounters h := by
  induction hre with
  | nil => rfl
  | @cons r r' h h' hr _ ih =>
    cases hr with
    | same =>
      cases hk : r.inLane .build with
      | true => simp [initialCounters, hk]
      | false => simpa [initialCounters, hk] using ih
    | reported party hf =>
      obtain ⟨hki, he, _⟩ := hf
      simp [initialCounters, LedgerRow.inLane, hki]

variable [DecidableEq Id]

namespace FoldState

theorem observe_channel (he : r.eventKind = .attempt)
    (hc : r.outcomeClass = .timeout ∨ (r.outcomeClass = .exemptInfra ∧ r.floorAtCap = false))
    (s : FoldState Id) (budget : Budget) :
    s.observe { r with reportingParty := party } budget = s.observe r budget := by
  rcases hc with hc | ⟨hc, hca⟩
  · by_cases hp : r.reportingParty = .worker <;> by_cases hq : party = .worker <;>
      simp [observe, rowToEvent, he, hc, hp, hq,
        Counters.apply_timeout s.counters r.time r.time r.executor r.executor]
  · by_cases hp : r.reportingParty = .worker <;> by_cases hq : party = .worker <;>
      simp [observe, rowToEvent, he, hc, hca, hp, hq,
        Counters.apply_exempt s.counters r.time r.executor r.executor]

theorem step_channel (hr : ChannelFree r)
    (s : FoldState Id) : step budget s { r with reportingParty := party } = step budget s r := by
  obtain ⟨hk, he, hc⟩ := hr
  have hb : ∀ p, runStep { r with reportingParty := p } .storeDegraded = .breakRun := by
    intro p
    rcases hc with hc | ⟨hc, _⟩ <;> simp [runStep, isBoundedUnchargedRow, boundedUncharged, hk, hc]
  simp only [step, hb]
  exact observe_channel he hc _ budget

end FoldState

theorem decide_channel_invariant {h h' : List (LedgerRow Id)}
    (hrel : List.Forall₂ SameObservation h h') (budget : Budget) (now : AbsTime) :
    decide h' budget now = decide h budget now := by
  have hfo : ∀ s, h'.foldl (FoldState.step budget) s = h.foldl (FoldState.step budget) s := by
    induction hrel with
    | nil => intro s; rfl
    | cons hr _ ih =>
      intro s
      cases hr with
      | same => exact ih _
      | reported party hf =>
        simp only [List.foldl_cons, FoldState.step_channel hf]
        exact ih _
  simp [decide, foldHistory, initialCounters_channel hrel, hfo]

def timeoutRow (party : ReportingParty) : LedgerRow String :=
  { LedgerRow.workerReport .timeout (some "node-a") 100 with reportingParty := party }

theorem decide_channel_invariant_timeouts :
    decide (List.replicate 5 (timeoutRow .controller)) {} 200 =
      decide (List.replicate 5 (timeoutRow .worker)) {} 200 ∧
    (decide (List.replicate 5 (timeoutRow .worker)) {} 200).verdict = .cancel := by
  have hr : SameObservation (timeoutRow .worker) (timeoutRow .controller) :=
    .reported .controller ⟨rfl, rfl, .inl rfl⟩
  constructor
  · apply decide_channel_invariant
    exact .cons hr (.cons hr (.cons hr (.cons hr (.cons hr .nil))))
  · decide

end RioBuild.Retry
