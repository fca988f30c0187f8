import RioBuild.Retry.Charges

universe u

namespace RioBuild.Retry

open Lib AttemptEvent

variable {Id : Type u}

theorem exhaustsFleet_empty [DecidableEq Id] (failedBuilders : IdSet Id) :
    exhaustsFleet failedBuilders {} = false := by
  simp [exhaustsFleet]

theorem ttlDowngrade_cases (c : Counters Id) (v : Verdict) (now : AbsTime) (budget : Budget) :
    ttlDowngrade c v now budget = v ∨ ttlDowngrade c v now budget = .ttlExpire ∧
        ∃ p, c.poisonedAt = some p ∧ U64.saturatingSub now p > budget.poisonTtlSecs := by
  unfold ttlDowngrade
  split
  · split
    · rename_i hp hlt
      exact .inr ⟨rfl, _, hp, hlt⟩
    · exact .inl rfl
  · exact .inl rfl

theorem ttlDowngrade_eq_of_ne (h : ttlDowngrade c v now budget = v') (hne : v' ≠ .ttlExpire) :
    v = v' := by
  rcases ttlDowngrade_cases c v now budget with hv | ⟨hv, _⟩
  · rw [← hv, h]
  · rw [hv] at h
    exact absurd h.symm hne

/-- The budgets that an event draws on afford it: `c` is the state before the event and
`c'` the state it leaves. -/
@[mk_iff] structure Affords (budget : Budget) (k : Charges) (c c' : Counters Id) : Prop where
  conclusive : k.conclusive = false
  threshold : k.checks = true → c'.poisonThresholdReached budget = false
  retry : k.retry = true → c.count < budget.maxRetries
  timeout : k.timeout = true → c.timeoutCount < budget.maxTimeoutRetries
  exempt : k.exempt = true → c.exemptInfraCount + 1 < budget.maxExemptInfraRetries
  infra : k.infra = true → c.infraCount < budget.maxInfraRetries

namespace Counters

section Arms

variable (c : Counters Id) (time : AbsTime) (budget : Budget)

theorem poisonThresholdReached_poison :
    (c.poison time reason).1.poisonThresholdReached budget = c.poisonThresholdReached budget := rfl

theorem retryTransient_requeue : (c.retryTransient time budget).2 = .requeue ↔
    c.count < budget.maxRetries := by
  rw [retryTransient]
  split
  · simp_all
  · simp_all [poison]

theorem poisonThresholdReached_retryTransient :
    (c.retryTransient time budget).1.poisonThresholdReached budget =
      c.poisonThresholdReached budget := by
  rw [retryTransient]
  split <;> rfl

theorem chargeInfra_requeue : (c.chargeInfra time budget).2 = .requeue ↔
    c.infraCount < budget.maxInfraRetries := by
  rw [chargeInfra]
  split
  · simp_all [poison]
  · simp_all

theorem chargeExempt_requeue : (c.chargeExempt time budget).2 = .requeue ↔
    c.exemptInfraCount + 1 < budget.maxExemptInfraRetries := by
  simp only [chargeExempt]
  split
  · simp_all [poison]
  · simp_all

theorem recheckThreshold_requeue : (c.recheckThreshold time budget).2 = .requeue ↔
    (c.recheckThreshold time budget).1.poisonThresholdReached budget = false := by
  rw [recheckThreshold]
  split
  · rename_i h
    rw [poisonThresholdReached_poison, h]
    simp [poison]
  · simp_all

theorem count_retryTransient : (c.retryTransient time budget).1.count =
    if (c.retryTransient time budget).2 = .requeue then c.count + 1 else c.count := by
  rw [retryTransient]
  split <;> rfl

theorem count_chargeInfra : (c.chargeInfra time budget).1.count = c.count := by
  rw [chargeInfra]
  split <;> rfl

theorem count_chargeExempt : (c.chargeExempt time budget).1.count = c.count := by
  simp only [chargeExempt]
  split <;> rfl

theorem count_recheckThreshold : (c.recheckThreshold time budget).1.count = c.count := by
  rw [recheckThreshold]
  split <;> rfl

end Arms

variable [DecidableEq Id] (c : Counters Id) (budget : Budget)

theorem count_recordFailure (executor : Option Id) :
    (c.recordFailure executor).count = c.count := by
  cases executor <;> rfl

theorem apply_requeue_iff (ev : AttemptEvent Id) : (c.apply ev budget {}).2 = .requeue ↔
    Affords budget ev.charges c (c.apply ev budget {}).1 := by
  cases ev with
  | transient time executor =>
    have hc := count_recordFailure { c with infraCount := 0 } executor
    simp only [affords_iff, charges, apply, exhaustsFleet_empty]
    split
    · rename_i h
      rw [poisonThresholdReached_poison, h]
      simp [poison]
    · rename_i h
      simp [retryTransient_requeue, poisonThresholdReached_retryTransient, hc, h]
  | infra time executor exempt atCap =>
    cases exempt with
    | true => simp [affords_iff, charges, apply, chargeExempt_requeue]
    | false => simp [affords_iff, charges, apply, chargeInfra_requeue]
  | executorVariant time executor atCap =>
    have hc := count_recordFailure { c with infraCount := 0 } executor
    simp only [affords_iff, charges, apply]
    split_ifs with hca h
    · simp [poison, hca]
    · rw [poisonThresholdReached_poison, h]
      simp [poison]
    · simp [retryTransient_requeue, poisonThresholdReached_retryTransient, hc, h, hca]
  | permanent time executor | dispatched time executor | resubmitReset time | cacheHitClear time
  | poisonCleared time => simp [affords_iff, charges, apply]
  | workerTimeout time executor | controllerDeadlineExceeded time executor =>
    simp only [affords_iff, charges, apply]
    split <;> simp_all
  | disconnect time executor =>
    simpa [affords_iff, charges, apply] using recheckThreshold_requeue c time budget
  | controllerTermination time executor promoted atCap =>
    cases atCap with
    | true => simp [affords_iff, charges, apply, chargeInfra_requeue]
    | false =>
      cases promoted with
      | true => simp [affords_iff, charges, apply, chargeExempt_requeue]
      | false => simp [affords_iff, charges, apply]
  | backstopTimeout time executor | establishedCrash time executor =>
    simpa [affords_iff, charges, apply] using recheckThreshold_requeue _ time budget

theorem count_apply (ev : AttemptEvent Id) : (c.apply ev budget {}).1.count =
    if ev.charges.clears then 0
    else if ev.charges.retry = true ∧ (c.apply ev budget {}).2 = .requeue then c.count + 1
    else c.count := by
  cases ev with
  | transient time executor =>
    have hc := count_recordFailure { c with infraCount := 0 } executor
    simp only [charges, apply, exhaustsFleet_empty]
    split
    · simpa [poison] using hc
    · simp [count_retryTransient, hc]
  | infra time executor exempt atCap =>
    cases exempt with
    | true => exact count_chargeExempt c time budget
    | false => exact count_chargeInfra c time budget
  | executorVariant time executor atCap =>
    have hc := count_recordFailure { c with infraCount := 0 } executor
    cases atCap with
    | true => simpa [charges, apply, poison] using hc
    | false =>
      simp only [charges, apply, Bool.false_eq_true, if_false]
      split
      · simpa [poison] using hc
      · simp [count_retryTransient, hc]
  | permanent time executor => cases executor <;> rfl
  | workerTimeout time executor | controllerDeadlineExceeded time executor =>
    simp only [apply]
    split <;> rfl
  | disconnect time executor => exact count_recheckThreshold c time budget
  | controllerTermination time executor promoted atCap =>
    cases atCap with
    | true => exact count_chargeInfra c time budget
    | false =>
      cases promoted with
      | true => exact count_chargeExempt c time budget
      | false => rfl
  | backstopTimeout time executor | establishedCrash time executor =>
    exact (count_recheckThreshold _ time budget).trans (count_recordFailure c executor)
  | dispatched time executor | resubmitReset time | cacheHitClear time | poisonCleared time => rfl

end Counters

variable [DecidableEq Id]

theorem decide_requeue_iff (h : List (LedgerRow Id)) (budget : Budget) (now : AbsTime) :
    (decide h budget now).verdict = .requeue ↔ (foldHistory h budget).verdict = .requeue := by
  constructor
  · intro hv
    exact ttlDowngrade_eq_of_ne hv (by decide)
  · intro hv
    simp only [decide, hv]
    rfl

namespace FoldState

variable (budget : Budget) (s : FoldState Id) (r : LedgerRow Id)

theorem step_requeue_iff (hs : s.verdict = .requeue) : (step budget s r).verdict = .requeue ↔
    Affords budget r.charges s.counters (step budget s r).counters := by
  rw [step_verdict, affords_iff,
    step_proj (g := fun c => c.poisonThresholdReached budget) (fun _ _ => rfl),
    ← charges_visibleEvent]
  cases visibleEvent r with
  | none => simp [hs]
  | some ev => exact (s.counters.apply_requeue_iff budget ev).trans (affords_iff _ _ _ _)

theorem count_step : (step budget s r).counters.count = if r.charges.clears then 0
    else if r.charges.retry = true ∧ (step budget s r).verdict = .requeue then
      s.counters.count + 1
    else s.counters.count := by
  rw [step_verdict, step_proj (g := Counters.count) (fun _ _ => rfl), ← charges_visibleEvent]
  cases visibleEvent r with
  | none => simp
  | some ev => exact s.counters.count_apply budget ev

end FoldState

end RioBuild.Retry
