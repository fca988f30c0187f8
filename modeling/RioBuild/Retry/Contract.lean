import RioBuild.Retry.Verdicts

universe u

namespace RioBuild.Retry

open Lib List

variable {Id : Type u}

def decideVerdictPartitionConsistent (d : Decision Id) (budget : Budget) (now : AbsTime) : Bool :=
  match d.verdict with
  | .requeue => true
  | .poison .threshold => d.counters.poisonedAt.isSome && d.counters.poisonThresholdReached budget
  | .poison .transientBudget => d.counters.poisonedAt.isSome && d.counters.count ≥ budget.maxRetries
  | .poison .infraBudget =>
    d.counters.poisonedAt.isSome && d.counters.infraCount ≥ budget.maxInfraRetries
  | .poison .exemptInfraBudget =>
    d.counters.poisonedAt.isSome && d.counters.exemptInfraCount ≥ budget.maxExemptInfraRetries
  | .poison .permanent => d.counters.poisonedAt.isSome
  | .poison .computeBoundAtCap => d.counters.poisonedAt.isSome
  | .poison .fleetExhausted => false
  | .cancel => d.counters.timeoutCount ≥ budget.maxTimeoutRetries
  | .ttlExpire =>
    match d.counters.poisonedAt with
    | some p => U64.saturatingSub now p > budget.poisonTtlSecs
    | none => false

def lastBuildRow (history : List (LedgerRow Id)) : Option (LedgerRow Id) :=
  history.reverse.find? (LedgerRow.inLane .build)

def isExemptCharge (r : LedgerRow Id) : Bool :=
  r.eventKind = .attempt &&
    ((r.reportingParty = .worker && r.outcomeClass = .exemptInfra) ||
      (r.reportingParty ≠ .worker && !r.floorAtCap &&
        (r.outcomeClass = .exemptInfra || (r.outcomeClass = .infra && r.floorPromoted))))

def decideRequeueWithinCaps (d : Decision Id) (history : List (LedgerRow Id)) (budget : Budget) :
    Bool :=
  let lastIsExemptCharge := (lastBuildRow history).any isExemptCharge
  d.counters.count ≤ budget.maxRetries && d.counters.infraCount ≤ budget.maxInfraRetries &&
    d.counters.timeoutCount ≤ budget.maxTimeoutRetries &&
    (d.verdict ≠ .requeue || !lastIsExemptCharge ||
      d.counters.exemptInfraCount < budget.maxExemptInfraRetries)

def decideExecutorVariantPermanentIsThreshold (d : Decision Id) (history : List (LedgerRow Id))
    (budget : Budget) : Bool :=
  let lastIsExecutorVariant := (lastBuildRow history).any fun r =>
    r.eventKind = .attempt && r.outcomeClass = .executorVariant
  !(lastIsExecutorVariant && d.verdict = .poison .permanent) ||
    d.counters.poisonThresholdReached budget

def Backed (budget : Budget) (c : Counters Id) : Verdict → Prop
  | .requeue => True
  | .poison reason =>
    c.poisonedAt.isSome ∧ match reason with
      | .threshold => c.poisonThresholdReached budget
      | .transientBudget => c.count ≥ budget.maxRetries
      | .infraBudget => c.infraCount ≥ budget.maxInfraRetries
      | .exemptInfraBudget => c.exemptInfraCount ≥ budget.maxExemptInfraRetries
      | .permanent => True
      | .computeBoundAtCap => True
      | .fleetExhausted => False
  | .cancel => c.timeoutCount ≥ budget.maxTimeoutRetries
  | .ttlExpire => False

namespace Counters

variable (c : Counters Id) (time : AbsTime) (budget : Budget)

theorem backed_retryTransient :
    Backed budget (c.retryTransient time budget).1 (c.retryTransient time budget).2 := by
  rw [retryTransient]
  split
  · trivial
  · rename_i h
    exact ⟨rfl, UInt32.not_lt.mp h⟩

theorem backed_chargeInfra :
    Backed budget (c.chargeInfra time budget).1 (c.chargeInfra time budget).2 := by
  rw [chargeInfra]
  split
  · rename_i h
    exact ⟨rfl, h⟩
  · trivial

theorem backed_chargeExempt :
    Backed budget (c.chargeExempt time budget).1 (c.chargeExempt time budget).2 := by
  simp only [chargeExempt]
  split
  · rename_i h
    exact ⟨rfl, h⟩
  · trivial

theorem backed_recheckThreshold :
    Backed budget (c.recheckThreshold time budget).1 (c.recheckThreshold time budget).2 := by
  rw [recheckThreshold]
  split
  · rename_i h
    exact ⟨rfl, h⟩
  · trivial

end Counters

variable {r : LedgerRow Id}

theorem exempt_of_isExemptCharge (hk : r.kind = .build)
    (h : isExemptCharge r = true) : r.charges.exempt = true := by
  simp only [isExemptCharge, Bool.and_eq_true, Bool.or_eq_true, decide_eq_true_eq] at h
  obtain ⟨he, ⟨hw, hc⟩ | ⟨⟨hw, hca⟩, hc | ⟨hc, hp⟩⟩⟩ := h
  · simp [LedgerRow.charges, LedgerRow.attempted, LedgerRow.isWorker, hk, he, hw, hc]
  · simp [LedgerRow.charges, LedgerRow.attempted, hk, he, hca, hc]
  · simp [LedgerRow.charges, LedgerRow.attempted, LedgerRow.isWorker, hk, he, hw, hca, hc, hp]

variable {h : List (LedgerRow Id)}

theorem mem_window_of_afterLast
    (hr : r ∈ buildRows (afterLast (fun r => r.inLane .build && r.isReset) h)) : r ∈ window h := by
  have hl : ∀ x : LedgerRow Id, (x.inLane .build && x.isReset) = true → x.inLane .build = true := by
    intro x hx
    exact (Bool.and_eq_true_iff.mp hx).1
  rw [buildRows, filter_afterLast hl] at hr
  refine afterLast_subset ?_ hr
  intro x hx
  simp only [LedgerRow.charges, Bool.and_eq_true] at hx
  simpa [LedgerRow.inLane, LedgerRow.isReset] using hx.1

theorem lastBuildRow_eq (h : List (LedgerRow Id)) : lastBuildRow h = (buildRows h).getLast? := by
  rw [lastBuildRow, ← head?_filter, filter_reverse, head?_reverse]
  rfl

theorem exists_event_of_charges (h : r.charges ≠ {}) :
    ∃ ev, visibleEvent r = some ev ∧ ev.charges = r.charges := by
  have hr := charges_visibleEvent r
  cases he : visibleEvent r with
  | none =>
    rw [he] at hr
    exact absurd hr.symm h
  | some ev =>
    rw [he] at hr
    exact ⟨ev, rfl, hr⟩

variable [DecidableEq Id]

def decideExclusionCoversChargedAttempts (d : Decision Id) (history : List (LedgerRow Id)) :
    Bool :=
  let lastReset := rposition (fun r => r.inLane .build && r.isReset) history
  let start := lastReset.elim 0 (· + 1)
  ((history.drop start).filter (LedgerRow.inLane .build)).all fun r =>
    let chargesThreshold := r.eventKind = .attempt &&
      [OutcomeClass.transient, .permanent, .executorVariant, .backstop, .executorCrash].contains
        r.outcomeClass
    !chargesThreshold || r.executor.all (· ∈ d.exclusion)

namespace Counters

variable (c : Counters Id) (budget : Budget)

theorem backed_apply (ev : AttemptEvent Id) :
    Backed budget (c.apply ev budget {}).1 (c.apply ev budget {}).2 := by
  cases ev with
  | transient time executor =>
    simp only [apply, exhaustsFleet_empty]
    split
    · rename_i h
      exact ⟨rfl, h⟩
    · exact backed_retryTransient _ time budget
  | infra time executor exempt atCap =>
    cases exempt with
    | true => exact backed_chargeExempt c time budget
    | false => exact backed_chargeInfra c time budget
  | executorVariant time executor atCap =>
    simp only [apply]
    split_ifs
    · exact ⟨rfl, trivial⟩
    · exact ⟨rfl, trivial⟩
    · exact backed_retryTransient _ time budget
  | permanent time executor =>
    refine ⟨?_, trivial⟩
    cases executor <;> rfl
  | workerTimeout time executor =>
    simp only [apply]
    split_ifs with h
    · trivial
    · exact UInt32.not_lt.mp h
  | disconnect time executor => exact backed_recheckThreshold c time budget
  | controllerTermination time executor promoted atCap =>
    simp only [apply]
    split_ifs
    · exact backed_chargeInfra c time budget
    · exact backed_chargeExempt c time budget
    · trivial
  | controllerDeadlineExceeded time executor =>
    simp only [apply]
    split_ifs with h
    · exact h
    · trivial
  | backstopTimeout time executor | establishedCrash time executor =>
    exact backed_recheckThreshold _ time budget
  | dispatched time executor | resubmitReset time | cacheHitClear time | poisonCleared time =>
    trivial

theorem count_apply_le (h : c.count ≤ budget.maxRetries) :
    (c.apply ev budget {}).1.count ≤ budget.maxRetries := by
  rw [count_apply]
  split
  · exact UInt32.zero_le
  · split_ifs with hr
    · have hlt := ((apply_requeue_iff c budget ev).mp hr.2).retry hr.1
      rw [UInt32.le_iff_toNat_le, U32.toNat_add_one_of_lt hlt]
      exact UInt32.lt_iff_toNat_lt.mp hlt
    · exact h

theorem exemptInfraCount_apply (he : ev.charges.exempt = true) :
    (c.apply ev budget fleet).1.exemptInfraCount = c.exemptInfraCount + 1 := by
  have hc : ev.charges.clears = false := by
    cases ev <;> first | rfl | cases he
  refine (congrArg Tally.exemptInfraCount (tally_apply c budget ev fleet)).trans ?_
  simp [Tally.charge, Tally.add, he, hc, tally]

theorem executorVariant_permanent
    (h : (c.apply (.executorVariant time executor atCap) budget {}).2 = .poison .permanent) :
    (c.apply (.executorVariant time executor atCap) budget {}).1.poisonThresholdReached budget =
      true := by
  simp only [apply] at h ⊢
  split_ifs at h ⊢ with hc ht
  · cases h
  · exact ht
  · rw [retryTransient] at h
    split at h <;> cases h

end Counters

theorem foldHistory_of_lastBuildRow (hr : lastBuildRow h = some r) (budget : Budget) :
    r.kind = .build ∧ ∃ s, foldHistory h budget = FoldState.step budget s r := by
  rw [lastBuildRow_eq, getLast?_eq_some_iff] at hr
  obtain ⟨pre, hp⟩ := hr
  constructor
  · have hm : r ∈ buildRows h := by simp [hp]
    simpa [LedgerRow.inLane] using (mem_filter.mp hm).2
  · rw [← foldHistory_buildRows, hp, foldHistory, foldl_concat]
    exact ⟨_, rfl⟩

section Clauses

variable (h : List (LedgerRow Id)) (budget : Budget) (now : AbsTime)

theorem backed_foldHistory : Backed budget (foldHistory h budget).counters
    (foldHistory h budget).verdict := by
  apply foldHistory_invariant
  · trivial
  · intro c v u hc
    exact hc
  · intro c v ev _
    exact c.backed_apply budget ev

theorem verdictPartitionConsistent_decide :
    decideVerdictPartitionConsistent (decide h budget now) budget now = true := by
  have hb := backed_foldHistory h budget
  rcases ttlDowngrade_cases (foldHistory h budget).counters (foldHistory h budget).verdict now
    budget with hv | ⟨hv, p, hp, hlt⟩
  · simp only [decideVerdictPartitionConsistent, decide, hv]
    revert hb
    cases (foldHistory h budget).verdict with
    | poison reason => cases reason <;> simp [Backed]
    | _ => simp [Backed]
  · simpa [decideVerdictPartitionConsistent, decide, hv, hp] using hlt

theorem count_foldHistory_le : (foldHistory h budget).counters.count ≤ budget.maxRetries := by
  apply foldHistory_invariant (P := fun c _ => c.count ≤ budget.maxRetries)
  · obtain ⟨n, hn⟩ := initialCounters_eq h
    rw [hn]
    exact UInt32.zero_le
  · intro c v u hc
    exact hc
  · intro c v ev hc
    exact c.count_apply_le budget hc

theorem exemptInfraCount_lt_of_last (hr : lastBuildRow h = some r)
    (he : r.charges.exempt = true) (hv : (foldHistory h budget).verdict = .requeue) :
    (foldHistory h budget).counters.exemptInfraCount < budget.maxExemptInfraRetries := by
  obtain ⟨_, s, hs⟩ := foldHistory_of_lastBuildRow hr budget
  obtain ⟨ev, hev, hk⟩ := exists_event_of_charges (r := r) (by rintro hr; simp [hr] at he)
  rw [← hk] at he
  rw [hs, FoldState.step_verdict, hev] at hv
  rw [hs, FoldState.step_proj (g := Counters.exemptInfraCount) (fun _ _ => rfl), hev]
  simp only [Option.elim_some, Counters.exemptInfraCount_apply _ budget he] at hv ⊢
  exact ((Counters.apply_requeue_iff _ budget ev).mp hv).exempt he

theorem requeueWithinCaps_decide :
    decideRequeueWithinCaps (decide h budget now) h budget = true := by
  have hi : (foldHistory h budget).counters.infraCount ≤ budget.maxInfraRetries := by
    rw [UInt32.le_iff_toNat_le, toNat_infraCount]
    exact min_le_left _ _
  have ht : (foldHistory h budget).counters.timeoutCount ≤ budget.maxTimeoutRetries := by
    rw [UInt32.le_iff_toNat_le, toNat_timeoutCount]
    exact min_le_left _ _
  have he : (decide h budget now).verdict ≠ .requeue ∨ (lastBuildRow h).any isExemptCharge = false ∨
      (foldHistory h budget).counters.exemptInfraCount < budget.maxExemptInfraRetries := by
    by_contra hc
    simp only [not_or, not_not, Bool.not_eq_false, Option.any_eq_true] at hc
    obtain ⟨hv, ⟨r, hr, hcg⟩, hca⟩ := hc
    have hk := (foldHistory_of_lastBuildRow hr budget).1
    exact hca (exemptInfraCount_lt_of_last h budget hr (exempt_of_isExemptCharge hk hcg)
      (ttlDowngrade_eq_of_ne hv (by decide)))
  have hct := count_foldHistory_le h budget
  simp only [decideRequeueWithinCaps, Bool.and_eq_true, Bool.or_eq_true, decide_eq_true_eq,
    Bool.not_eq_true', or_assoc]
  exact ⟨⟨⟨hct, hi⟩, ht⟩, he⟩

theorem executorVariantPermanentIsThreshold_decide :
    decideExecutorVariantPermanentIsThreshold (decide h budget now) h budget = true := by
  simp only [decideExecutorVariantPermanentIsThreshold, Bool.or_eq_true, Bool.not_eq_true']
  by_contra hc
  simp only [not_or, Bool.not_eq_false, Option.any_eq_true, Bool.and_eq_true,
    decide_eq_true_eq] at hc
  obtain ⟨⟨⟨r, hr, heve, hcl⟩, hv⟩, ht⟩ := hc
  obtain ⟨hk, s, hs⟩ := foldHistory_of_lastBuildRow hr budget
  have he : visibleEvent r = some (.executorVariant r.time r.executor r.floorAtCap) := by
    simp [visibleEvent, rowToEvent, hk, heve, hcl]
  have hv := ttlDowngrade_eq_of_ne hv (by decide)
  rw [hs, FoldState.step_verdict, he] at hv
  apply ht
  simp only [decide]
  rw [hs, FoldState.step_proj (g := fun c => c.poisonThresholdReached budget) (fun _ _ => rfl), he]
  exact Counters.executorVariant_permanent _ budget hv

theorem exclusionCoversChargedAttempts_decide :
    decideExclusionCoversChargedAttempts (decide h budget now) h = true := by
  simp only [decideExclusionCoversChargedAttempts, drop_rposition, all_eq_true,
    Bool.or_eq_true, Bool.not_eq_true', Option.all_eq_true, decide_eq_true_eq]
  intro r hr
  rw [or_iff_not_imp_left, Bool.not_eq_false]
  intro hc e he
  have hk : r.kind = .build := by simpa [LedgerRow.inLane] using (mem_filter.mp hr).2
  apply (mem_failedBuilders h budget e).mpr
  refine ⟨r, mem_window_of_afterLast hr, ?_⟩
  have hn : r.charges.names = true := by
    simp only [Bool.and_eq_true, decide_eq_true_eq, contains_eq_mem, mem_cons] at hc
    simp only [LedgerRow.charges, LedgerRow.attempted, hk, hc.1, contains_eq_mem,
      mem_cons, decide_true, Bool.true_and, decide_eq_true_eq]
    tauto
  rw [LedgerRow.failedExecutor, if_pos hn, he]

end Clauses

theorem decide_contract (h : List (LedgerRow Id)) (budget : Budget) (now : AbsTime) :
    decideVerdictPartitionConsistent (decide h budget now) budget now = true ∧
    decideRequeueWithinCaps (decide h budget now) h budget = true ∧
    decideExclusionCoversChargedAttempts (decide h budget now) h = true ∧
    decideExecutorVariantPermanentIsThreshold (decide h budget now) h budget = true :=
  ⟨verdictPartitionConsistent_decide h budget now, requeueWithinCaps_decide h budget now,
    exclusionCoversChargedAttempts_decide h budget now,
    executorVariantPermanentIsThreshold_decide h budget now⟩

end RioBuild.Retry
