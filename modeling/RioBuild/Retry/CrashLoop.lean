import RioBuild.Retry.Bounds

universe u

namespace RioBuild.Retry

open Lib List

variable {Id : Type u}

def OtherBudgetDrained (budget : Budget) (h : List (LedgerRow Id)) : Prop :=
  (∃ r ∈ h, r.charges.conclusive = true) ∨
  budget.maxRetries.toNat < h.countP (fun r => r.charges.retry) ∨
  budget.maxTimeoutRetries.toNat < h.countP (fun r => r.charges.timeout) ∨
  (0 < h.countP (fun r => r.charges.exempt) ∧
    budget.maxExemptInfraRetries.toNat ≤ h.countP fun r => r.charges.exempt) ∨
  ∃ p, p <+: h ∧ budget.maxInfraRetries.toNat < streak p

def crashes (h : List (LedgerRow Id)) : Nat := h.countP fun r => r.outcomeClass = .executorCrash

theorem crashes_le {h : List (LedgerRow Id)} (ha : BuildAttempts h) :
    crashes h ≤ h.countP fun r => r.charges.failure := by
  apply countP_mono_left
  intro r hr hc
  simp [LedgerRow.charges, LedgerRow.attempted, ha r hr, hc]

variable [DecidableEq Id]

variable {budget : Budget}

theorem withinBudget_iff {h : List (LedgerRow Id)} :
    WithinBudget budget h ↔ ¬ OtherBudgetDrained budget h ∧
      ((∀ r ∈ h, r.charges.checks = false) ∨ failures budget h < budget.poisonThreshold.toNat) := by
  constructor
  · intro hi
    refine ⟨?_, hi.threshold⟩
    rintro (⟨r, hr, hc⟩ | hlt | hlt | ⟨hpo, hle⟩ | ⟨p, hp, hlt⟩)
    · rw [hi.conclusive r hr] at hc
      cases hc
    · exact not_lt.mpr hi.retry hlt
    · exact not_lt.mpr hi.timeout hlt
    · have := hi.exempt
      omega
    · exact not_lt.mpr (hi.infra p hp) hlt
  · rintro ⟨ho, ht⟩
    simp only [OtherBudgetDrained, not_or, not_exists, not_and, not_lt, Bool.not_eq_true] at ho
    obtain ⟨hco, hre, hti, he, hinf⟩ := ho
    exact ⟨hco, hre, hti, by omega, hinf, ht⟩

theorem exists_verdict_ne_requeue_iff {h : List (LedgerRow Id)} :
    (∃ p, p <+: h ∧ ∀ now, (decide p budget now).verdict ≠ .requeue) ↔
      ¬ AlwaysRequeued budget h := by
  rw [alwaysRequeued_iff_inits]
  simp [decide_requeue_iff]

theorem failures_of_distinct (hd : budget.requireDistinctWorkers = true)
    (h : List (LedgerRow Id)) : failures budget h = (failingExecutors h).card := by
  rw [failures, if_pos hd]

theorem crash_loop_ends_iff (budget : Budget) (h : List (LedgerRow Id)) (hatt : BuildAttempts h)
    (hcrash : budget.poisonThreshold.toNat < crashes h) :
    (∃ p, p <+: h ∧ ∀ now, (decide p budget now).verdict ≠ .requeue) ↔
      budget.requireDistinctWorkers = false ∨
        budget.poisonThreshold.toNat ≤ (failingExecutors h).card ∨ OtherBudgetDrained budget h := by
  have hrw := hcrash.trans_le (crashes_le hatt)
  have hs : ¬ ∀ r ∈ h, r.charges.checks = false := by
    intro hn
    have hz : (h.countP fun r => r.charges.failure) = 0 := by
      rw [countP_eq_zero]
      intro r hr
      simp [LedgerRow.failure_of_checks (hn r hr)]
    omega
  rw [exists_verdict_ne_requeue_iff, alwaysRequeued_iff hatt, withinBudget_iff]
  cases hd : budget.requireDistinctWorkers with
  | false =>
    have hf : ¬ failures budget h < budget.poisonThreshold.toNat := by
      simp only [failures, hd]
      exact not_lt.mpr hrw.le
    simp [hs, hf]
  | true =>
    rw [failures_of_distinct hd]
    by_cases ho : OtherBudgetDrained budget h <;> simp [hs, ho]

theorem crash_loop_ends_iff_named :
    ∃ p, p <+: [crashRow (some "node-a"), crashRow (some "node-b"), crashRow none,
        crashRow (some "node-c")] ∧
      ∀ now, (decide p {} now).verdict ≠ .requeue := by
  apply (crash_loop_ends_iff {} _ (by decide) (by decide)).mpr
  exact .inr (.inl (by decide))

/-- Crashes without a source name no one: under distinct-worker counting a loop of them
is requeued forever. -/
theorem alwaysRequeued_of_anonymous_crashes
    (hd : budget.requireDistinctWorkers = true) (ht : 1 ≤ budget.poisonThreshold)
    (hrw : ∀ r ∈ h, r = crashRow none) : AlwaysRequeued budget h := by
  have ha : BuildAttempts h := by
    intro r hr
    rw [hrw r hr]
    exact ⟨rfl, rfl⟩
  have hf : ∀ (k : Charges → Bool), k (crashRow none).charges = false →
      ∀ l, l ⊆ h → l.countP (fun r => k r.charges) = 0 := by
    intro k hk l hl
    rw [countP_eq_zero]
    intro r hr
    simp [hrw r (hl hr), hk]
  have hn : failingExecutors h = ∅ := by
    ext e
    simp only [failingExecutors, mem_toFinset, mem_filterMap, Finset.notMem_empty, iff_false]
    rintro ⟨r, hr, he⟩
    rw [hrw r hr] at he
    cases he
  rw [alwaysRequeued_iff ha]
  constructor
  · intro r hr
    rw [hrw r hr]
    rfl
  · rw [hf Charges.retry rfl h (List.Subset.refl h)]
    exact Nat.zero_le _
  · rw [hf Charges.timeout rfl h (List.Subset.refl h)]
    exact Nat.zero_le _
  · exact .inl (hf Charges.exempt rfl h (List.Subset.refl h))
  · intro p hp
    rw [streak, hf Charges.infra rfl _ (List.Subset.trans (afterLast_suffix p).subset hp.subset)]
    exact Nat.zero_le _
  · right
    rw [failures_of_distinct hd, hn]
    exact UInt32.le_iff_toNat_le.mp ht

theorem crash_loop_ends_iff_anonymous : BuildAttempts (List.replicate 4 (crashRow none)) ∧
    (3 : UInt32).toNat < crashes (List.replicate 4 (crashRow none)) ∧
    ¬ ∃ p, p <+: List.replicate 4 (crashRow none) ∧
      ∃ now, (decide p {} now).verdict ≠ .requeue := by
  have hre : AlwaysRequeued {} (replicate 4 (crashRow none)) :=
    alwaysRequeued_of_anonymous_crashes rfl (by decide) fun r hr => eq_of_mem_replicate hr
  refine ⟨by decide, by decide, ?_⟩
  rintro ⟨p, hp, now, hv⟩
  apply hv
  rw [decide_requeue_iff]
  exact alwaysRequeued_iff_inits.mp hre p ((mem_inits p _).mpr hp)

end RioBuild.Retry
