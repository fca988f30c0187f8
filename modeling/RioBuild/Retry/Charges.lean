import RioBuild.Retry.Lanes

universe u

namespace RioBuild.Retry

open Lib List

structure Charges where
  clears : Bool := false
  names : Bool := false
  failure : Bool := false
  retry : Bool := false
  timeout : Bool := false
  exempt : Bool := false
  infra : Bool := false
  forgives : Bool := false
  checks : Bool := false
  conclusive : Bool := false
  deriving DecidableEq, Repr

variable {Id : Type u}

def AttemptEvent.charges : AttemptEvent Id → Charges
  | .transient _ _ =>
    { names := true, failure := true, retry := true, forgives := true, checks := true }
  | .infra _ _ exempt _ => { exempt := exempt, infra := !exempt }
  | .executorVariant _ _ atCap =>
    { names := true, failure := true, retry := true, forgives := true, checks := true,
      conclusive := atCap }
  | .permanent _ _ => { names := true, conclusive := true }
  | .workerTimeout _ _ => { timeout := true, forgives := true }
  | .disconnect _ _ => { checks := true }
  | .controllerTermination _ _ promoted atCap => { exempt := promoted && !atCap, infra := atCap }
  | .controllerDeadlineExceeded _ _ => { timeout := true, forgives := true }
  | .backstopTimeout _ _ => { names := true, failure := true, checks := true }
  | .establishedCrash _ _ => { names := true, failure := true, checks := true }
  | .dispatched _ _ => {}
  | .resubmitReset _ => { clears := true }
  | .cacheHitClear _ => { clears := true }
  | .poisonCleared _ => { clears := true }

def AttemptEvent.failedExecutor : AttemptEvent Id → Option Id
  | .transient _ executor | .executorVariant _ executor _ | .permanent _ executor
  | .backstopTimeout _ executor | .establishedCrash _ executor => executor
  | _ => none

namespace LedgerRow

def attempted (r : LedgerRow Id) (classes : List OutcomeClass) : Bool :=
  r.kind = .build && r.eventKind = .attempt && classes.contains r.outcomeClass

def isWorker (r : LedgerRow Id) : Bool := r.reportingParty = .worker

def charges (r : LedgerRow Id) : Charges where
  clears := r.kind = .build && r.eventKind = .reset &&
    [.resubmitReset, .cacheHitClear, .poisonCleared].contains r.outcomeClass
  names := r.attempted [.transient, .executorVariant, .permanent, .backstop, .executorCrash]
  failure := r.attempted [.transient, .executorVariant, .backstop, .executorCrash]
  retry := r.attempted [.transient, .executorVariant]
  timeout := r.attempted [.timeout]
  exempt := (r.attempted [.exemptInfra] && r.isWorker) ||
    (r.attempted [.exemptInfra] && !r.isWorker && !r.floorAtCap) ||
    (r.attempted [.infra] && !r.isWorker && !r.floorAtCap && r.floorPromoted)
  infra := (r.attempted [.infra] && r.isWorker) ||
    (r.attempted [.infra, .exemptInfra] && !r.isWorker && r.floorAtCap)
  forgives := r.attempted [.transient, .executorVariant, .timeout]
  checks := r.attempted [.transient, .executorVariant, .backstop, .executorCrash, .disconnected]
  conclusive := r.attempted [.permanent] || (r.attempted [.executorVariant] && r.floorAtCap)

def failedExecutor (r : LedgerRow Id) : Option Id := if r.charges.names then r.executor else none

end LedgerRow

def window (h : List (LedgerRow Id)) : List (LedgerRow Id) :=
  afterLast (fun r => r.charges.clears) (buildRows h)

theorem charges_visibleEvent (r : LedgerRow Id) :
    (visibleEvent r).elim {} AttemptEvent.charges = r.charges := by
  obtain ⟨eventKind, cls, executor, party, promoted, atCap, cycle, time, kind⟩ := r
  cases kind with
  | materialization => rfl
  | build =>
    cases eventKind with
    | reset => cases cls <;> rfl
    | attempt =>
      cases cls with
      | infra | exemptInfra => cases party <;> cases promoted <;> cases atCap <;> rfl
      | timeout => cases party <;> rfl
      | _ => cases party <;> cases atCap <;> rfl

theorem failedExecutor_visibleEvent :
    (visibleEvent r).elim none AttemptEvent.failedExecutor = r.failedExecutor := by
  obtain ⟨eventKind, cls, executor, party, promoted, atCap, cycle, time, kind⟩ := r
  cases kind with
  | materialization => rfl
  | build =>
    cases eventKind with
    | reset => cases cls <;> rfl
    | attempt => cases cls <;> cases party <;> rfl

structure Tally (Id : Type u) where
  infraCount : UInt32 := 0
  timeoutCount : UInt32 := 0
  exemptInfraCount : UInt32 := 0
  failedBuilders : IdSet Id := ∅
  failureCount : UInt32 := 0

def Counters.tally (c : Counters Id) : Tally Id where
  infraCount := c.infraCount
  timeoutCount := c.timeoutCount
  exemptInfraCount := c.exemptInfraCount
  failedBuilders := c.failedBuilders
  failureCount := c.failureCount

namespace Counters

theorem tally_retryTransient (c : Counters Id) :
    (c.retryTransient time budget).1.tally = c.tally := by
  rw [retryTransient]
  split <;> rfl

theorem tally_recheckThreshold (c : Counters Id) (time : AbsTime) (budget : Budget) :
    (c.recheckThreshold time budget).1.tally = c.tally := by
  rw [recheckThreshold]
  split <;> rfl

end Counters

theorem tally_initialCounters (h : List (LedgerRow Id)) : (initialCounters h).tally = {} := by
  obtain ⟨n, hn⟩ := initialCounters_eq h
  rw [hn]
  rfl

variable [DecidableEq Id]

namespace Tally

def add (budget : Budget) (t : Tally Id) (k : Charges) (executor : Option Id) : Tally Id where
  infraCount :=
    if k.forgives then 0
    else if k.infra then
      (if t.infraCount < budget.maxInfraRetries then t.infraCount + 1 else t.infraCount)
    else t.infraCount
  timeoutCount :=
    if k.timeout then
      (if t.timeoutCount < budget.maxTimeoutRetries then t.timeoutCount + 1 else t.timeoutCount)
    else t.timeoutCount
  exemptInfraCount := if k.exempt then t.exemptInfraCount + 1 else t.exemptInfraCount
  failedBuilders := executor.elim t.failedBuilders (insert · t.failedBuilders)
  failureCount := if k.failure then t.failureCount + 1 else t.failureCount

def charge (budget : Budget) (t : Tally Id) (k : Charges) (executor : Option Id) : Tally Id :=
  if k.clears then {} else t.add budget k executor

end Tally

namespace Counters

variable (c : Counters Id) (time : AbsTime) (budget : Budget)

theorem tally_recordFailure (executor : Option Id) :
    (recordFailure { c with infraCount := 0 } executor).tally =
      c.tally.charge budget { failure := true, forgives := true } executor := by
  cases executor <;> rfl

theorem tally_chargeExempt :
    (c.chargeExempt time budget).1.tally = c.tally.charge budget { exempt := true } none := by
  simp only [chargeExempt]
  split <;> rfl

theorem tally_chargeInfra :
    (c.chargeInfra time budget).1.tally = c.tally.charge budget { infra := true } none := by
  by_cases h : c.infraCount < budget.maxInfraRetries
  · rw [chargeInfra, if_neg (UInt32.not_le.mpr h)]
    simp [Tally.charge, Tally.add, tally, h]
  · rw [chargeInfra, if_pos (UInt32.not_lt.mp h)]
    simp [Tally.charge, Tally.add, tally, h, poison]

theorem tally_workerTimeout (executor : Option Id) (fleet : FleetView Id) :
    (c.apply (.workerTimeout time executor) budget fleet).1.tally =
      c.tally.charge budget { timeout := true, forgives := true } none := by
  by_cases h : c.timeoutCount < budget.maxTimeoutRetries <;>
    simp [apply, Tally.charge, Tally.add, tally, h]

theorem tally_apply (ev : AttemptEvent Id) (fleet : FleetView Id) :
    (c.apply ev budget fleet).1.tally = c.tally.charge budget ev.charges ev.failedExecutor := by
  cases ev with
  | transient time executor | executorVariant time executor atCap =>
    simp only [apply]
    split_ifs
    · exact tally_recordFailure c budget executor
    · exact tally_recordFailure c budget executor
    · rw [tally_retryTransient]
      exact tally_recordFailure c budget executor
  | infra time executor exempt atCap =>
    cases exempt with
    | true => exact tally_chargeExempt c time budget
    | false => exact tally_chargeInfra c time budget
  | permanent time executor => cases executor <;> rfl
  | workerTimeout time executor => exact tally_workerTimeout c time budget executor fleet
  | disconnect time executor => exact tally_recheckThreshold c time budget
  | controllerTermination time executor promoted atCap =>
    cases atCap with
    | true =>
      cases promoted <;> exact tally_chargeInfra c time budget
    | false =>
      cases promoted with
      | true => exact tally_chargeExempt c time budget
      | false => rfl
  | controllerDeadlineExceeded time executor =>
    rw [← apply_timeout c time time executor executor]
    exact tally_workerTimeout c time budget executor fleet
  | backstopTimeout time executor | establishedCrash time executor =>
    simp only [apply, tally_recheckThreshold]
    cases executor <;> rfl
  | dispatched time executor | resubmitReset time | cacheHitClear time | poisonCleared time => rfl

end Counters

namespace FoldState

theorem tally_step (budget : Budget) (s : FoldState Id) (r : LedgerRow Id) :
    (step budget s r).counters.tally =
      s.counters.tally.charge budget r.charges r.failedExecutor := by
  rw [step_proj (g := Counters.tally) (fun _ _ => rfl), ← charges_visibleEvent,
    ← failedExecutor_visibleEvent]
  cases visibleEvent r with
  | none => rfl
  | some ev => exact s.counters.tally_apply budget ev {}

end FoldState

theorem tally_foldHistory (h : List (LedgerRow Id)) : (foldHistory h budget).counters.tally =
    (window h).foldl (fun t r => t.add budget r.charges r.failedExecutor) {} := by
  rw [← foldHistory_buildRows]
  apply foldl_afterLast (g := fun s : FoldState Id => s.counters.tally)
  · intro s r
    exact s.tally_step budget r
  · exact tally_initialCounters _

section Readings

variable (h : List (LedgerRow Id)) (budget : Budget)

theorem proj_foldHistory (g : Tally Id → β)
    (hk : ∀ t r, k (g t) r = g (t.add budget r.charges r.failedExecutor)) :
    g (foldHistory h budget).counters.tally = (window h).foldl k (g {}) := by
  rw [tally_foldHistory]
  exact (foldl_hom g hk).symm

theorem mem_failedBuilders (e : Id) : e ∈ (foldHistory h budget).counters.failedBuilders ↔
    ∃ r ∈ window h, r.failedExecutor = some e := by
  rw [← mem_foldl_insert]
  exact Eq.to_iff (congrArg (e ∈ ·) (proj_foldHistory h budget Tally.failedBuilders fun _ _ => rfl))

theorem failureCount_eq : (foldHistory h budget).counters.failureCount =
    UInt32.ofNat ((window h).countP fun r => r.charges.failure) := by
  rw [← foldl_tally]
  exact proj_foldHistory h budget Tally.failureCount fun _ _ => rfl

theorem exemptInfraCount_eq : (foldHistory h budget).counters.exemptInfraCount =
    UInt32.ofNat ((window h).countP fun r => r.charges.exempt) := by
  rw [← foldl_tally]
  exact proj_foldHistory h budget Tally.exemptInfraCount fun _ _ => rfl

theorem toNat_timeoutCount : (foldHistory h budget).counters.timeoutCount.toNat =
    min budget.maxTimeoutRetries.toNat ((window h).countP fun r => r.charges.timeout) := by
  rw [← foldl_capped (fun r : LedgerRow Id => r.charges.timeout)
    (fun n hn => U32.toNat_ite_lt_add_one hn)]
  exact congrArg UInt32.toNat (proj_foldHistory h budget Tally.timeoutCount fun _ _ => rfl)

theorem toNat_infraCount : (foldHistory h budget).counters.infraCount.toNat =
    min budget.maxInfraRetries.toNat
      ((afterLast (fun r => r.charges.forgives) (window h)).countP fun r => r.charges.infra) := by
  have hs : (window h).foldl (fun n r =>
        if r.charges.forgives then 0
        else if r.charges.infra then (if n < budget.maxInfraRetries then n + 1 else n) else n)
        0 =
      (afterLast (fun r => r.charges.forgives) (window h)).foldl (fun n r =>
        if r.charges.infra then (if n < budget.maxInfraRetries then n + 1 else n) else n) 0 := by
    refine foldl_afterLast (g := id) ?_ rfl (window h)
    intro n r
    rfl
  rw [← foldl_capped (fun r : LedgerRow Id => r.charges.infra)
    (fun n hn => U32.toNat_ite_lt_add_one hn), ← hs]
  exact congrArg UInt32.toNat (proj_foldHistory h budget Tally.infraCount fun _ _ => rfl)

end Readings

theorem counters_read_ledger (h : List (LedgerRow Id)) (budget : Budget) (now : AbsTime) :
    (∀ e, e ∈ (decide h budget now).counters.failedBuilders ↔
      ∃ r ∈ window h, r.charges.names = true ∧ r.executor = some e) ∧
    (decide h budget now).counters.failureCount.toNat =
      (window h).countP (fun r => r.charges.failure) % 2 ^ 32 ∧
    (decide h budget now).counters.timeoutCount.toNat =
      min budget.maxTimeoutRetries.toNat ((window h).countP fun r => r.charges.timeout) ∧
    (decide h budget now).counters.exemptInfraCount.toNat =
      (window h).countP (fun r => r.charges.exempt) % 2 ^ 32 ∧
    (decide h budget now).counters.infraCount.toNat = min budget.maxInfraRetries.toNat
        ((afterLast (fun r => r.charges.forgives) (window h)).countP fun r => r.charges.infra) := by
  refine ⟨?_, ?_, toNat_timeoutCount h budget, ?_, toNat_infraCount h budget⟩
  · intro e
    refine (mem_failedBuilders h budget e).trans ?_
    simp [LedgerRow.failedExecutor]
  · exact (congrArg UInt32.toNat (failureCount_eq h budget)).trans UInt32.toNat_ofNat'
  · exact (congrArg UInt32.toNat (exemptInfraCount_eq h budget)).trans UInt32.toNat_ofNat'

def crashRow (executor : Option String) : LedgerRow String :=
  { LedgerRow.workerReport .executorCrash executor 0 with reportingParty := .scheduler }

theorem window_replicate_crashRow :
    window (List.replicate n (crashRow none)) = List.replicate n (crashRow none) := by
  have hb : buildRows (replicate n (crashRow none)) = replicate n (crashRow none) := by
    rw [buildRows, filter_replicate_of_pos rfl]
  rw [window, hb, afterLast_eq_self]
  intro r hr
  rw [eq_of_mem_replicate hr]
  rfl

theorem failureCount_of_countP {h : List (LedgerRow String)}
    (hn : (window h).countP (fun r => r.charges.failure) = 2 ^ 32) :
    (decide h budget now).counters.failureCount = 0 := by
  refine (failureCount_eq h budget).trans ?_
  rw [hn]
  rfl

/-- The flat counters wrap: `2 ^ 32` crashes read as none. -/
theorem counters_read_ledger_overflow :
    (window (List.replicate (2 ^ 32) (crashRow none))).countP (fun r => r.charges.failure) =
      2 ^ 32 ∧
    (decide (List.replicate (2 ^ 32) (crashRow none)) {} 0).counters.failureCount = 0 := by
  have hn : (window (replicate (2 ^ 32) (crashRow none))).countP
      (fun r => r.charges.failure) = 2 ^ 32 := by
    rw [window_replicate_crashRow, countP_replicate]
    rfl
  exact ⟨hn, failureCount_of_countP hn⟩

end RioBuild.Retry
