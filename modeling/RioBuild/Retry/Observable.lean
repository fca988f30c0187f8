import RioBuild.Retry.Ledger

universe u

namespace RioBuild.Retry

variable {Id : Type u}

namespace Counters

def eraseBackoff (c : Counters Id) : Counters Id := { c with backoffUntil := none }

def observable (r : Counters Id × Verdict) : Counters Id × Verdict := (r.1.eraseBackoff, r.2)

variable (c : Counters Id) (time : AbsTime) (budget : Budget)

theorem observable_chargeInfra : observable (c.eraseBackoff.chargeInfra time budget) =
    observable (c.chargeInfra time budget) := by
  simp only [chargeInfra, apply_ite observable]
  rfl

theorem observable_chargeExempt : observable (c.eraseBackoff.chargeExempt time budget) =
    observable (c.chargeExempt time budget) := by
  simp only [chargeExempt, apply_ite observable]
  rfl

theorem observable_recheckThreshold : observable (c.eraseBackoff.recheckThreshold time budget) =
    observable (c.recheckThreshold time budget) := by
  simp only [recheckThreshold, apply_ite observable]
  rfl

variable [DecidableEq Id]

theorem recordFailure_eraseBackoff :
    c.eraseBackoff.recordFailure executor = (c.recordFailure executor).eraseBackoff := by
  cases executor <;> rfl

theorem observable_apply (ev : AttemptEvent Id) (fleet : FleetView Id) :
    observable (c.eraseBackoff.apply ev budget fleet) = observable (c.apply ev budget fleet) := by
  cases ev with
  | transient time executor | executorVariant time executor atCap =>
    simp only [apply, retryTransient, apply_ite observable]
    cases executor <;> rfl
  | infra time executor exempt atCap =>
    simp [apply, apply_ite observable, observable_chargeExempt, observable_chargeInfra]
  | permanent time executor => cases executor <;> rfl
  | workerTimeout time executor | controllerDeadlineExceeded time executor =>
    simp only [apply, apply_ite observable]
    rfl
  | disconnect time executor => exact observable_recheckThreshold c time budget
  | controllerTermination time executor promoted atCap =>
    simp only [apply, apply_ite observable, observable_chargeExempt, observable_chargeInfra]
    rfl
  | backstopTimeout time executor | establishedCrash time executor =>
    simp [apply, recordFailure_eraseBackoff, observable_recheckThreshold]
  | dispatched time executor | resubmitReset time | cacheHitClear time | poisonCleared time => rfl

def applyObservable (budget : Budget) (p : Counters Id × Verdict) (ev : AttemptEvent Id) :
    Counters Id × Verdict :=
  observable (p.1.apply ev budget {})

end Counters

theorem ttlDowngrade_congr (h : c.eraseBackoff = c'.eraseBackoff) (now : AbsTime)
    (budget : Budget) : ttlDowngrade c v now budget = ttlDowngrade c' v now budget := by
  change ttlDowngrade c.eraseBackoff v now budget = ttlDowngrade c'.eraseBackoff v now budget
  rw [h]

variable [DecidableEq Id]

namespace FoldState

def observable (s : FoldState Id) : Counters Id × Verdict :=
  Counters.observable (s.counters, s.verdict)

theorem observable_step (row : LedgerRow Id) : (step budget s row).observable =
    (visibleEvent row).elim s.observable (Counters.applyObservable budget s.observable) := by
  have hc := step_proj (g := Counters.eraseBackoff) (fun _ _ => rfl) budget s row
  have hv := step_verdict budget s row
  rw [observable, Counters.observable, hc, hv]
  cases visibleEvent row with
  | none => rfl
  | some ev => exact (s.counters.observable_apply budget ev {}).symm

theorem observable_foldl (rows : List (LedgerRow Id)) : (rows.foldl (step budget) s).observable =
    (rows.filterMap visibleEvent).foldl (Counters.applyObservable budget) s.observable := by
  rw [List.foldl_filterMap, ← List.foldl_hom observable]
  intro s row
  rw [observable_step]
  cases visibleEvent row <;> rfl

end FoldState

/-- The row fold refines the reference fold: but for the backoff deadline, `decide` computes
what the reference fold computes from the visible events. -/
theorem decide_refines_foldEvents (h : List (LedgerRow Id)) (budget : Budget) (now : AbsTime) :
    (decide h budget now).verdict =
        (foldEvents (initialCounters h) (h.filterMap visibleEvent) now budget {}).2 ∧
      (decide h budget now).counters.eraseBackoff =
        (foldEvents (initialCounters h)
          (h.filterMap visibleEvent) now budget {}).1.eraseBackoff := by
  have he : Counters.observable ((h.filterMap visibleEvent).foldl
      (fun s ev => s.1.apply ev budget {}) (initialCounters h, .requeue)) =
      (foldHistory h budget).observable := by
    rw [foldHistory, FoldState.observable_foldl, ← List.foldl_hom Counters.observable]
    · rfl
    · intro p ev
      exact p.1.observable_apply budget ev {}
  have hc := congrArg Prod.fst he
  have hv := congrArg Prod.snd he
  refine ⟨?_, hc.symm⟩
  exact (ttlDowngrade_congr hc.symm now budget).trans
    (congrArg (fun v => ttlDowngrade _ v now budget) hv.symm)

end RioBuild.Retry
