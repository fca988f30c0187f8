import RioBuild.Retry.Verdicts

universe u

namespace RioBuild.Retry

open Lib List LedgerRow

variable {Id : Type u}

def BuildAttempts (h : List (LedgerRow Id)) : Prop :=
  ∀ r ∈ h, r.kind = .build ∧ r.eventKind = .attempt

instance (h : List (LedgerRow Id)) : Decidable (BuildAttempts h) :=
  inferInstanceAs (Decidable (∀ r ∈ h, r.kind = .build ∧ r.eventKind = .attempt))

def streak (h : List (LedgerRow Id)) : Nat :=
  (afterLast (fun r => r.charges.forgives) h).countP fun r => r.charges.infra

theorem charges_of_events {Q : Charges → Prop} (hn : Q {})
    (he : ∀ ev : AttemptEvent Id, Q ev.charges) (r : LedgerRow Id) : Q r.charges := by
  rw [← charges_visibleEvent]
  cases visibleEvent r with
  | none => exact hn
  | some ev => exact he ev

variable {r : LedgerRow Id}

theorem LedgerRow.failure_of_checks : r.charges.checks = false → r.charges.failure = false := by
  apply charges_of_events (Q := fun k => k.checks = false → k.failure = false)
  · exact id
  · intro ev
    cases ev <;> simp [AttemptEvent.charges]

theorem LedgerRow.forgives_of_infra : r.charges.infra = true → r.charges.forgives = false := by
  apply charges_of_events (Q := fun k => k.infra = true → k.forgives = false)
  · simp
  · intro ev
    cases ev <;> simp [AttemptEvent.charges]

theorem LedgerRow.names_eq_failure :
    r.charges.conclusive = false → r.charges.names = r.charges.failure := by
  apply charges_of_events (Q := fun k => k.conclusive = false → k.names = k.failure)
  · simp
  · intro ev
    cases ev <;> simp [AttemptEvent.charges]

theorem LedgerRow.forgives_iff : r.charges.forgives = (r.charges.retry || r.charges.timeout) ∧
    (r.charges.retry && r.charges.timeout) = false := by
  apply charges_of_events (Q := fun k => k.forgives = (k.retry || k.timeout) ∧
    (k.retry && k.timeout) = false)
  · exact ⟨rfl, rfl⟩
  · intro ev
    cases ev <;> exact ⟨rfl, rfl⟩

theorem countP_concat (h : List (LedgerRow Id)) :
    (h ++ [r]).countP p = h.countP p + if p r then 1 else 0 := by
  rw [countP_append, countP_singleton]

theorem countP_forgives (h : List (LedgerRow Id)) : h.countP (fun r => r.charges.forgives) =
    h.countP (fun r => r.charges.retry) + h.countP fun r => r.charges.timeout := by
  induction h with
  | nil => rfl
  | cons r h ih =>
    obtain ⟨ho, ha⟩ := r.forgives_iff
    cases hr : r.charges.retry <;> cases ht : r.charges.timeout <;> simp_all <;> omega

theorem streak_concat (h : List (LedgerRow Id)) : streak (h ++ [r]) =
    if r.charges.forgives then 0 else streak h + if r.charges.infra then 1 else 0 := by
  rw [streak, afterLast_concat]
  cases r.charges.forgives with
  | true => rfl
  | false => simp [streak]

theorem window_eq_self (hatt : BuildAttempts h) : window h = h := by
  have hb : buildRows h = h := by
    rw [buildRows, filter_eq_self]
    intro r hr
    simp [inLane, (hatt r hr).1]
  rw [window, hb, afterLast_eq_self]
  intro r hr
  simp [charges, (hatt r hr).2]

theorem BuildAttempts.of_concat (hatt : BuildAttempts (h ++ [r])) :
    BuildAttempts h ∧ r.isReset = false ∧ r.charges.clears = false := by
  have hr := hatt r (by simp)
  exact ⟨fun x hx => hatt x (by simp [hx]), by simp [isReset, hr.2], by simp [charges, hr.2]⟩

variable [DecidableEq Id]

def failingExecutors (h : List (LedgerRow Id)) : Finset Id :=
  (h.filterMap fun r => if r.charges.failure then r.executor else none).toFinset

def failures (budget : Budget) (h : List (LedgerRow Id)) : Nat :=
  if budget.requireDistinctWorkers then (failingExecutors h).card
  else h.countP fun r => r.charges.failure

theorem failures_concat (budget : Budget) (h : List (LedgerRow Id)) (r : LedgerRow Id) :
    failures budget h ≤ failures budget (h ++ [r]) ∧
      failures budget (h ++ [r]) ≤ failures budget h + if r.charges.failure then 1 else 0 := by
  have hs : failingExecutors (h ++ [r]) = failingExecutors h ∪ failingExecutors [r] := by
    simp [failingExecutors]
  have ho : (failingExecutors [r]).card ≤ if r.charges.failure then 1 else 0 := by
    cases hf : r.charges.failure <;> cases he : r.executor <;> simp [failingExecutors, hf, he]
  unfold failures
  split
  · rw [hs]
    exact ⟨Finset.card_le_card Finset.subset_union_left,
      (Finset.card_union_le _ _).trans (Nat.add_le_add_left ho _)⟩
  · rw [countP_concat]
    exact ⟨Nat.le_add_right _ _, le_rfl⟩

variable {h : List (LedgerRow Id)}

theorem failures_eq_zero (budget : Budget)
    (hf : ∀ r ∈ h, r.charges.failure = false) : failures budget h = 0 := by
  have hs : failingExecutors h = ∅ := by
    ext e
    simp only [failingExecutors, mem_toFinset, mem_filterMap, Finset.notMem_empty, iff_false]
    rintro ⟨r, hr, he⟩
    simp [hf r hr] at he
  unfold failures
  split
  · rw [hs, Finset.card_empty]
  · rw [countP_eq_zero]
    intro r hr
    simp [hf r hr]

structure WithinBudget (budget : Budget) (h : List (LedgerRow Id)) : Prop where
  conclusive : ∀ r ∈ h, r.charges.conclusive = false
  retry : h.countP (fun r => r.charges.retry) ≤ budget.maxRetries.toNat
  timeout : h.countP (fun r => r.charges.timeout) ≤ budget.maxTimeoutRetries.toNat
  exempt : h.countP (fun r => r.charges.exempt) = 0 ∨
    h.countP (fun r => r.charges.exempt) < budget.maxExemptInfraRetries.toNat
  infra : ∀ p, p <+: h → streak p ≤ budget.maxInfraRetries.toNat
  threshold : (∀ r ∈ h, r.charges.checks = false) ∨ failures budget h < budget.poisonThreshold.toNat

def AlwaysRequeued (budget : Budget) (h : List (LedgerRow Id)) : Prop :=
  ∀ p, p <+: h → p ≠ [] → ∃ now, (decide p budget now).verdict = .requeue

variable {budget : Budget}

theorem alwaysRequeued_concat : AlwaysRequeued budget (h ++ [r]) ↔
    AlwaysRequeued budget h ∧ (foldHistory (h ++ [r]) budget).verdict = .requeue := by
  constructor
  · intro hr
    refine ⟨fun p hp => hr p (hp.trans (prefix_append h [r])), ?_⟩
    obtain ⟨now, hn⟩ := hr _ prefix_rfl (by simp)
    exact (decide_requeue_iff _ budget now).mp hn
  · rintro ⟨hr, hl⟩ p hp hne
    rcases prefix_concat_iff.mp hp with rfl | hp
    · exact ⟨0, (decide_requeue_iff _ budget 0).mpr hl⟩
    · exact hr p hp hne

theorem alwaysRequeued_iff_inits :
    AlwaysRequeued budget h ↔ ∀ p ∈ h.inits, (foldHistory p budget).verdict = .requeue := by
  simp only [AlwaysRequeued, mem_inits, decide_requeue_iff, exists_const]
  refine forall₂_congr fun p hp => ⟨fun hv => ?_, fun hv _ => hv⟩
  by_cases hne : p = []
  · rw [hne]
    rfl
  · exact hv hne

theorem AlwaysRequeued.verdict
    (hr : AlwaysRequeued budget h) : (foldHistory h budget).verdict = .requeue :=
  alwaysRequeued_iff_inits.mp hr h (by simp)

theorem toNat_count (hatt : BuildAttempts h) (hr : AlwaysRequeued budget h) :
    (foldHistory h budget).counters.count.toNat = h.countP fun r => r.charges.retry := by
  induction h using reverseRecOn with
  | nil => rfl
  | append_singleton h r ih =>
    obtain ⟨hatt, hre, hc⟩ := hatt.of_concat
    obtain ⟨hr, hl⟩ := alwaysRequeued_concat.mp hr
    have ih := ih hatt hr
    rw [foldHistory_concat hre] at hl ⊢
    have ha := (FoldState.step_requeue_iff budget _ r hr.verdict).mp hl
    rw [FoldState.count_step, hc, countP_concat, ← ih]
    cases hret : r.charges.retry with
    | false => simp
    | true => simp [hl, U32.toNat_add_one_of_lt (ha.retry hret)]

theorem failedBuilders_eq (hatt : BuildAttempts h) (hc : ∀ r ∈ h, r.charges.conclusive = false) :
    (foldHistory h budget).counters.failedBuilders = failingExecutors h := by
  ext e
  rw [mem_failedBuilders, window_eq_self hatt, failingExecutors, mem_toFinset, mem_filterMap]
  refine exists_congr fun r => and_congr_right fun hr => ?_
  rw [failedExecutor, names_eq_failure (hc r hr)]

theorem poisonThresholdReached_iff
    (hatt : BuildAttempts h) (hc : ∀ r ∈ h, r.charges.conclusive = false)
    (hlt : failures budget h < 2 ^ 32) :
    (foldHistory h budget).counters.poisonThresholdReached budget = true ↔
      budget.poisonThreshold.toNat ≤ failures budget h := by
  simp only [Counters.poisonThresholdReached, failedBuilders_eq hatt hc, failureCount_eq,
    window_eq_self hatt, decide_eq_true_eq, UInt32.le_iff_toNat_le]
  unfold failures at hlt ⊢
  split_ifs with hd
  · rw [if_pos hd] at hlt
    rw [UInt32.toNat_ofNat_of_lt' hlt]
  · rw [if_neg hd] at hlt
    rw [UInt32.toNat_ofNat_of_lt' hlt]

theorem WithinBudget.failures_lt (hin : WithinBudget budget h) (r : LedgerRow Id) :
    failures budget (h ++ [r]) < 2 ^ 32 := by
  have hs := (failures_concat budget h r).2
  have ht := budget.poisonThreshold.toNat_lt
  rcases hin.threshold with hn | hlt
  · have hz := failures_eq_zero budget fun x hx => failure_of_checks (hn x hx)
    split at hs <;> omega
  · split at hs <;> omega

theorem WithinBudget.of_concat (hin : WithinBudget budget (h ++ [r])) : WithinBudget budget h where
  conclusive x hx := hin.conclusive x (by simp [hx])
  retry := by
    have := hin.retry
    rw [countP_concat] at this
    omega
  timeout := by
    have := hin.timeout
    rw [countP_concat] at this
    omega
  exempt := by
    have := hin.exempt
    rw [countP_concat] at this
    omega
  infra p hp := hin.infra p (hp.trans (prefix_append h [r]))
  threshold := by
    rcases hin.threshold with hn | hlt
    · exact .inl fun x hx => hn x (by simp [hx])
    · exact .inr ((failures_concat budget h r).1.trans_lt hlt)

section Step

section

variable (hatt : BuildAttempts h)
include hatt

theorem retry_afforded_iff (hr : AlwaysRequeued budget h) (hin : WithinBudget budget h) :
    (r.charges.retry = true → (foldHistory h budget).counters.count < budget.maxRetries) ↔
      (h ++ [r]).countP (fun r => r.charges.retry) ≤ budget.maxRetries.toNat := by
  have ho := hin.retry
  rw [countP_concat, UInt32.lt_iff_toNat_lt, toNat_count hatt hr]
  cases r.charges.retry with
  | false => simpa using ho
  | true => exact ⟨fun hlt => hlt rfl, fun hle _ => hle⟩

section

variable (hin : WithinBudget budget h)
include hin

theorem timeout_afforded_iff : (r.charges.timeout = true →
    (foldHistory h budget).counters.timeoutCount < budget.maxTimeoutRetries) ↔
    (h ++ [r]).countP (fun r => r.charges.timeout) ≤ budget.maxTimeoutRetries.toNat := by
  have ho := hin.timeout
  rw [countP_concat, UInt32.lt_iff_toNat_lt, toNat_timeoutCount, window_eq_self hatt,
    min_eq_right ho]
  cases r.charges.timeout with
  | false => simpa using ho
  | true => exact ⟨fun hlt => hlt rfl, fun hle _ => hle⟩

theorem exempt_afforded_iff : (r.charges.exempt = true →
    (foldHistory h budget).counters.exemptInfraCount + 1 < budget.maxExemptInfraRetries) ↔
    (h ++ [r]).countP (fun r => r.charges.exempt) = 0 ∨
      (h ++ [r]).countP (fun r => r.charges.exempt) < budget.maxExemptInfraRetries.toNat := by
  have ho := hin.exempt
  have hc := budget.maxExemptInfraRetries.toNat_lt
  rw [countP_concat, UInt32.lt_iff_toNat_lt, exemptInfraCount_eq, window_eq_self hatt,
    UInt32.toNat_add, UInt32.toNat_ofNat', UInt32.toNat_one]
  cases r.charges.exempt with
  | false => simpa using ho
  | true =>
    simp only [forall_const, if_true]
    omega

theorem infra_afforded_iff :
    (r.charges.infra = true → (foldHistory h budget).counters.infraCount < budget.maxInfraRetries) ↔
      ∀ p, p <+: h ++ [r] → streak p ≤ budget.maxInfraRetries.toNat := by
  have hl : (∀ p, p <+: h ++ [r] → streak p ≤ budget.maxInfraRetries.toNat) ↔
      streak (h ++ [r]) ≤ budget.maxInfraRetries.toNat := by
    refine ⟨fun hp => hp _ prefix_rfl, fun hle p hp => ?_⟩
    rcases prefix_concat_iff.mp hp with rfl | hp
    · exact hle
    · exact hin.infra p hp
  have ho := hin.infra h prefix_rfl
  rw [hl, streak_concat, UInt32.lt_iff_toNat_lt, toNat_infraCount, window_eq_self hatt, ← streak]
  cases hk : r.charges.infra with
  | false =>
    cases r.charges.forgives with
    | false => simpa using ho
    | true => simp
  | true =>
    rw [forgives_of_infra hk, min_eq_right ho]
    exact ⟨fun hlt => hlt rfl, fun hle _ => hle⟩

end

end

theorem threshold_afforded_iff (hatt : BuildAttempts (h ++ [r]))
    (hc : ∀ x ∈ h ++ [r], x.charges.conclusive = false) (hin : WithinBudget budget h) :
    (r.charges.checks = true →
      (foldHistory (h ++ [r]) budget).counters.poisonThresholdReached budget = false) ↔
      (∀ x ∈ h ++ [r], x.charges.checks = false) ∨
        failures budget (h ++ [r]) < budget.poisonThreshold.toNat := by
  rw [← Bool.not_eq_true, poisonThresholdReached_iff hatt hc (hin.failures_lt r)]
  cases hk : r.charges.checks with
  | true => simp [hk]
  | false =>
    have hsa : failures budget (h ++ [r]) = failures budget h := by
      have hs := failures_concat budget h r
      rw [failure_of_checks hk] at hs
      exact le_antisymm hs.2 hs.1
    simpa [hk, or_imp, forall_and, hsa] using hin.threshold

theorem affords_iff_withinBudget (hatt : BuildAttempts (h ++ [r])) (hr : AlwaysRequeued budget h)
    (hin : WithinBudget budget h) : Affords budget r.charges (foldHistory h budget).counters
        (foldHistory (h ++ [r]) budget).counters ↔
      WithinBudget budget (h ++ [r]) := by
  have hatt' := hatt.of_concat.1
  constructor
  · intro ha
    have hc : ∀ x ∈ h ++ [r], x.charges.conclusive = false := by
      simpa [or_imp, forall_and] using And.intro hin.conclusive ha.conclusive
    exact
      { conclusive := hc
        retry := (retry_afforded_iff hatt' hr hin).mp ha.retry
        timeout := (timeout_afforded_iff hatt' hin).mp ha.timeout
        exempt := (exempt_afforded_iff hatt' hin).mp ha.exempt
        infra := (infra_afforded_iff hatt' hin).mp ha.infra
        threshold := (threshold_afforded_iff hatt hc hin).mp ha.threshold }
  · intro hw
    exact
      { conclusive := hw.conclusive r (by simp)
        threshold := (threshold_afforded_iff hatt hw.conclusive hin).mpr hw.threshold
        retry := (retry_afforded_iff hatt' hr hin).mpr hw.retry
        timeout := (timeout_afforded_iff hatt' hin).mpr hw.timeout
        exempt := (exempt_afforded_iff hatt' hin).mpr hw.exempt
        infra := (infra_afforded_iff hatt' hin).mpr hw.infra }

end Step

theorem alwaysRequeued_iff (hatt : BuildAttempts h) :
    AlwaysRequeued budget h ↔ WithinBudget budget h := by
  induction h using reverseRecOn with
  | nil =>
    refine iff_of_true ?_ ?_
    · intro p hp hne
      exact absurd (prefix_nil.mp hp) hne
    · constructor <;> simp [streak]
  | append_singleton h r ih =>
    obtain ⟨hatt', hre, _⟩ := hatt.of_concat
    have ih := ih hatt'
    have hs : AlwaysRequeued budget h →
        ((foldHistory (h ++ [r]) budget).verdict = .requeue ↔ WithinBudget budget (h ++ [r])) := by
      intro hr
      rw [← affords_iff_withinBudget hatt hr (ih.mp hr), foldHistory_concat hre]
      exact FoldState.step_requeue_iff budget _ r hr.verdict
    rw [alwaysRequeued_concat]
    constructor
    · rintro ⟨hr, hl⟩
      exact (hs hr).mp hl
    · intro hin
      have hr := ih.mpr hin.of_concat
      exact ⟨hr, (hs hr).mpr hin⟩

theorem WithinBudget.countP_infra_le (hin : WithinBudget budget h) :
    h.countP (fun r => r.charges.infra) ≤ budget.maxInfraRetries.toNat *
      (budget.maxRetries.toNat + budget.maxTimeoutRetries.toNat + 1) := by
  have hs := countP_le_of_streak ?_ hin.infra
  · refine hs.trans (Nat.mul_le_mul_left _ ?_)
    rw [countP_forgives]
    have := hin.retry
    have := hin.timeout
    omega
  · intro r hr
    rw [← Bool.not_eq_true]
    intro hi
    rw [forgives_of_infra hi] at hr
    cases hr

theorem charged_retries_bounded (budget : Budget) (h : List (LedgerRow Id))
    (hatt : BuildAttempts h) (hreq : AlwaysRequeued budget h) :
    h.countP (fun r => r.charges.retry) ≤ budget.maxRetries.toNat ∧
    h.countP (fun r => r.charges.timeout) ≤ budget.maxTimeoutRetries.toNat ∧
    h.countP (fun r => r.charges.exempt) ≤ budget.maxExemptInfraRetries.toNat - 1 ∧
    h.countP (fun r => r.charges.infra) ≤ budget.maxInfraRetries.toNat *
      (budget.maxRetries.toNat + budget.maxTimeoutRetries.toNat + 1) ∧
    (∀ r ∈ h, r.outcomeClass ≠ .permanent) ∧
    (failures budget h < budget.poisonThreshold.toNat ∨
      budget.poisonThreshold = 0 ∧ ∀ r ∈ h, r.charges.failure = false) := by
  have hin := (alwaysRequeued_iff hatt).mp hreq
  refine ⟨hin.retry, hin.timeout, ?_, hin.countP_infra_le, ?_, ?_⟩
  · have := hin.exempt
    omega
  · intro r hr hc
    have := hin.conclusive r hr
    simp [charges, attempted, hatt r hr, hc] at this
  · rcases hin.threshold with hn | hlt
    · have hf : ∀ r ∈ h, r.charges.failure = false := fun r hr =>
        failure_of_checks (hn r hr)
      rw [failures_eq_zero budget hf]
      by_cases hz : budget.poisonThreshold = 0
      · exact .inr ⟨hz, hf⟩
      · left
        rw [← UInt32.toNat_inj, UInt32.toNat_zero] at hz
        omega
    · exact .inl hlt

def mixedAttempts : List (LedgerRow String) :=
  [.workerReport .infra (some "node-a") 10, .workerReport .transient (some "node-a") 20,
    .workerReport .infra (some "node-b") 30, .workerReport .exemptInfra (some "node-b") 40,
    .workerReport .timeout (some "node-b") 50, crashRow (some "node-b")]

theorem charged_retries_bounded_mixed :
    AlwaysRequeued {} mixedAttempts ∧ failures {} mixedAttempts = 2 ∧
      mixedAttempts.countP (fun r => r.charges.infra) ≤ 10 * (2 + 4 + 1) := by
  have hr : AlwaysRequeued {} mixedAttempts := by
    rw [alwaysRequeued_iff_inits]
    decide
  exact ⟨hr, by decide, (charged_retries_bounded {} mixedAttempts (by decide) hr).2.2.2.1⟩

/-- With a zero threshold no count is below it, not even the empty one. -/
theorem charged_retries_bounded_zero_threshold :
    BuildAttempts [workerReport .timeout (some "node-a") 0] ∧
    AlwaysRequeued { poisonThreshold := 0 } [workerReport .timeout (some "node-a") 0] ∧
    ¬ failures { poisonThreshold := 0 } [workerReport .timeout (some "node-a") 0] <
      (0 : UInt32).toNat := by
  refine ⟨by decide, ?_, by decide⟩
  rw [alwaysRequeued_iff_inits]
  decide

end RioBuild.Retry
