import RioBuild.Wedge.Fresh

namespace RioBuild.Wedge

open Lib

/-- From tick `start` on every tick is observed, at most `gap` after the one before; the node stays
registered and is not reaped; two derivations stay open on it past deadline and grace, and no other
node has such an attempt. -/
structure Stuck (ticks : Nat → Tick) (start : Nat) (gap : ℚ) (n drv drv' : String) : Prop where
  named : n ≠ ""
  distinct : drv ≠ drv'
  observed : ∀ k ≥ start, ∃ openAttempts, (ticks k).view = some openAttempts ∧
    (∀ d ∈ [drv, drv'], ∃ a ∈ openAttempts,
      a.attemptKind = .build ∧ a.sourceNode = n ∧ a.intentId = d ∧ a.expired) ∧
    ∀ a ∈ openAttempts, a.attemptKind = .build → a.sourceNode ≠ "" → a.expired → a.sourceNode = n
  registered : ∀ k ≥ start, n ∈ (ticks k).registered
  unreaped : ∀ k ≥ start, n ∉ (ticks k).reapedSinceLast
  close : ∀ k ≥ start, (ticks (k + 1)).now ≤ (ticks k).now + gap
  increasing : ∀ k ≥ start, (ticks k).now < (ticks (k + 1)).now
  unbounded : ∀ time, ∃ k, time < (ticks k).now

theorem wedgeClusterWindowSecs_nonneg : 0 ≤ wedgeClusterWindowSecs := by
  norm_num [wedgeClusterWindowSecs]

def judgedState (ticks : Nat → Tick) (k : Nat) : WedgeTracker :=
  (state ticks k).fold (ticks k) ((ticks k).view.getD [])

theorem judgedState_eq (hv : (ticks k).view = some openAttempts) :
    judgedState ticks k = (state ticks k).fold (ticks k) openAttempts := by
  rw [judgedState, hv, Option.getD_some]

theorem entry_judged_of_succ (hv : (ticks k).view.isSome)
    (h : (state ticks (k + 1)).evidence.entry m d = some e) :
    (judgedState ticks k).evidence.entry m d = some e := by
  obtain ⟨openAttempts, hv⟩ := Option.isSome_iff_exists.mp hv
  rw [judgedState_eq hv]
  rcases (finalized_run hv).1.keeps_or_drains with hke | ⟨hd, -⟩
  · exact hke.evidence ▸ h
  · exact absurd h (by simp [hd.entry_eq_none])

namespace Stuck

variable (hclock : Monotone fun k => (ticks k).now) (hs : Stuck ticks start gap n drv drv')
include hs

theorem view_isSome (hk : start ≤ k) : (ticks k).view.isSome := by
  obtain ⟨openAttempts, hv, -⟩ := hs.observed k hk
  rw [hv]
  rfl

theorem gap_nonneg : 0 ≤ gap := by
  have hc := hs.close start le_rfl
  have hi := hs.increasing start le_rfl
  linarith

theorem old_of_ne (hk : start ≤ k) (hm : m ≠ n)
    (h : (judgedState ticks k).evidence.entry m d = some e) :
    (state ticks k).evidence.entry m d = some e := by
  obtain ⟨openAttempts, hv, -, ho⟩ := hs.observed k hk
  rw [judgedState_eq hv] at h
  rcases fold_cases h with ⟨-, -, hold⟩ | hf
  · exact hold
  · obtain ⟨-, -, -, -, a, ha, hki, rfl, hn, -, he, -⟩ := accepted_found hf
    exact absurd (ho a ha hki hn he) hm

include hclock

theorem anchor_le (hk : start ≤ k) (hm : m ≠ n)
    (h : (state ticks k).evidence.entry m d = some e) : e.anchor ≤ (ticks start).now := by
  induction k, hk using Nat.le_induction with
  | base =>
    obtain ⟨i, hi, ⟨⟨_, _, _, _, _, _, _, _, _, rfl⟩, _⟩, _⟩ := (known_run hclock start).entries h
    exact hclock hi.le
  | succ k hk ih => exact ih (hs.old_of_ne hk hm (entry_judged_of_succ (hs.view_isSome hk) h))

theorem now_le_of_other (hk : start ≤ k) (hm : m ≠ n)
    (h : (judgedState ticks k).evidence.entry m d = some e) :
    (ticks k).now ≤ (ticks start).now + wedgeClusterWindowSecs := by
  have ha := hs.anchor_le hclock hk hm (hs.old_of_ne hk hm h)
  have hw := of_decide_eq_true (inWindow_of_fold h)
  linarith

theorem now_le_of_two_nodes (hk : start ≤ k) (h : 2 ≤ (judgedState ticks k).evidence.keys.card) :
    (ticks k).now ≤ (ticks start).now + wedgeClusterWindowSecs := by
  obtain ⟨m, hm, hne⟩ := Finset.exists_mem_ne (Nat.lt_of_succ_le h) n
  obtain ⟨d, e, he⟩ := mem_keys_fold.mp hm
  exact hs.now_le_of_other hclock hk hne he

omit hs hclock in
theorem two_nodes_of_engaging (hv : (ticks k).view = some openAttempts) (ha : axis ≠ .dwell)
    (h : ((state ticks k).fold (ticks k) openAttempts).engaging
      ((state ticks k).populations (ticks k) openAttempts) (ticks k).now = some axis) :
    2 ≤ (judgedState ticks k).evidence.keys.card := by
  have hle : ((state ticks k).populations (ticks k) openAttempts).wedged.card ≤
      ((state ticks k).fold (ticks k) openAttempts).evidence.keys.card :=
    Finset.card_le_card (Finset.filter_subset _ _)
  rw [judgedState_eq hv]
  unfold WedgeTracker.engaging at h
  simp only [breadth_fold] at h
  split at h
  · rename_i hr
    simp only [WedgeTracker.shared, Bool.and_eq_true, decide_eq_true_eq] at hr
    omega
  · split at h
    · rename_i hb
      simp only [WedgeTracker.shared, Bool.and_eq_true, decide_eq_true_eq] at hb
      omega
    · split at h
      · exact absurd (Option.some.inj h).symm ha
      · exact absurd h (by simp)

section

variable (hk : start ≤ k)
include hk

theorem now_le_of_breadth (h : (state ticks (k + 1)).axis = some .breadth) :
    (ticks k).now ≤ (ticks start).now + wedgeClusterWindowSecs := by
  obtain ⟨openAttempts, hv, -⟩ := hs.observed k hk
  have he := (finalized_run hv).1.engaging_of_breadth h
  exact hs.now_le_of_two_nodes hclock hk (two_nodes_of_engaging hv (by simp) he)

theorem now_le_of_axis (h : (state ticks k).axis = some .breadth) :
    (ticks k).now ≤ (ticks start).now + wedgeClusterWindowSecs + gap := by
  have hg := hs.gap_nonneg
  rcases eq_or_lt_of_le hk with rfl | hlt
  · have := wedgeClusterWindowSecs_nonneg
    linarith
  · obtain ⟨k, rfl⟩ := Nat.exists_eq_succ_of_ne_zero (ne_zero_of_lt hlt)
    have hk' : start ≤ k := Nat.lt_succ_iff.mp hlt
    have hle := hs.now_le_of_breadth hclock hk' h
    have hc := hs.close k hk'
    linarith

theorem setAt_le (h : (state ticks k).lastSuppression = some w) :
    w.setAt ≤ (ticks start).now + wedgeClusterWindowSecs + gap := by
  have hg := hs.gap_nonneg
  induction k, hk using Nat.le_induction with
  | base =>
    obtain ⟨i, hi, hse⟩ := (known_run hclock start).watermark h
    have hle := hclock hi.le
    have := wedgeClusterWindowSecs_nonneg
    linarith
  | succ k hk ih =>
    obtain ⟨openAttempts, hv, -⟩ := hs.observed k hk
    rcases (finalized_run hv).1.keeps_or_drains with hke | ⟨hd, hw⟩
    · rw [hke.lastSuppression, lastSuppression_fold, Option.filter_eq_some_iff] at h
      exact ih h.1
    · rw [hd.lastSuppression] at h
      have hse : w.setAt = (ticks k).now := by
        rw [← Option.some.inj h]
        rfl
      rw [hse]
      rcases hw with hr | hb
      · have hle := hs.now_le_of_two_nodes hclock hk (two_nodes_of_engaging hv (by simp) hr)
        linarith
      · exact hs.now_le_of_axis hclock hk hb

theorem tombstone_le (h : (state ticks k).evicted.lookup n = some at_) :
    at_ ≤ (ticks start).now ∧ ∀ j, start ≤ j → j < k →
      (ticks j).now ≤ (ticks start).now + wedgeClusterWindowSecs := by
  induction k, hk using Nat.le_induction with
  | base =>
    obtain ⟨i, hi, rfl⟩ := (known_run hclock start).tombstones h
    exact ⟨hclock hi.le, fun j hj hlt => absurd hlt (not_lt.mpr hj)⟩
  | succ k hk ih =>
    obtain ⟨openAttempts, hv, -⟩ := hs.observed k hk
    rw [(finalized_run hv).2] at h
    obtain ⟨hob, hl⟩ := lookup_evicted_fold.mp h
    have ho : (state ticks k).evicted.lookup n = some at_ := by
      rcases lookup_evicted_observe ((state ticks k).sweep (ticks k)) openAttempts
        (ticks k).registered (ticks k).now n with heq | ⟨-, hn⟩
      · rwa [heq, lookup_evicted_sweep_of_stays (hs.unreaped k hk) (hs.registered k hk)]
          at hob
      · exact absurd (hs.registered k hk) hn
    obtain ⟨hle, hb⟩ := ih ho
    refine ⟨hle, fun j hj hlt => ?_⟩
    rcases Nat.lt_succ_iff_lt_or_eq.mp hlt with hlt | rfl
    · exact hb j hj hlt
    · linarith

end

section Late

variable (hk : start ≤ k)
  (hlate : (ticks start).now + 2 * wedgeClusterWindowSecs + gap < (ticks k).now)

include hk hlate

omit hclock in
theorem exists_pred : ∃ j, k = j + 1 ∧ start ≤ j ∧
    (ticks start).now + 2 * wedgeClusterWindowSecs < (ticks j).now := by
  have hg := hs.gap_nonneg
  have hw := wedgeClusterWindowSecs_nonneg
  have hne : start ≠ k := by
    rintro rfl
    linarith
  obtain ⟨j, rfl⟩ := Nat.exists_eq_succ_of_ne_zero (ne_zero_of_lt (lt_of_le_of_ne hk hne))
  have hj : start ≤ j := Nat.lt_succ_iff.mp (lt_of_le_of_ne hk hne)
  have hc := hs.close j hj
  refine ⟨j, rfl, hj, ?_⟩
  linarith

theorem evicted_eq_none : (state ticks k).evicted.lookup n = none := by
  obtain ⟨j, rfl, hj, hlt⟩ := hs.exists_pred hk hlate
  have hw := wedgeClusterWindowSecs_nonneg
  by_contra hne
  obtain ⟨at_, ha⟩ := Option.ne_none_iff_exists'.mp hne
  have hle := (hs.tombstone_le hclock hk ha).2 j hj (Nat.lt_succ_self j)
  linarith

theorem not_live (h : (state ticks k).lastSuppression = some w) : w.live (ticks k).now = false := by
  have hse := hs.setAt_le hclock hk h
  simp only [Suppression.live, decide_eq_false_iff_not]
  linarith

theorem not_gated (expiry : Nat) : (state ticks k).gated (ticks k).now expiry = false := by
  unfold WedgeTracker.gated
  cases h : (state ticks k).lastSuppression with
  | none => rfl
  | some w => simp [hs.not_live hclock hk hlate h]

theorem verdict_late : ∃ openAttempts, (ticks k).view = some openAttempts ∧
    Keeps (judgedState ticks k) (state ticks (k + 1)) ∧ verdict ticks k =
      .nodeWedged ((state ticks k).populations (ticks k) openAttempts).wedged := by
  have hg := hs.gap_nonneg
  have hwi := wedgeClusterWindowSecs_nonneg
  obtain ⟨openAttempts, hv, -⟩ := hs.observed k hk
  have ha : (state ticks k).axis ≠ some .breadth := by
    intro h
    have hle := hs.now_le_of_axis hclock hk h
    linarith
  have hso : ¬2 ≤ (judgedState ticks k).evidence.keys.card := by
    intro h
    have hle := hs.now_le_of_two_nodes hclock hk h
    linarith
  have hl : ((state ticks k).fold (ticks k) openAttempts).lastSuppression = none := by
    rw [lastSuppression_fold]
    cases h : (state ticks k).lastSuppression with
    | none => rfl
    | some w => simp [hs.not_live hclock hk hlate h]
  have he : ((state ticks k).fold (ticks k) openAttempts).engaging
      ((state ticks k).populations (ticks k) openAttempts) (ticks k).now = none := by
    cases h : ((state ticks k).fold (ticks k) openAttempts).engaging
        ((state ticks k).populations (ticks k) openAttempts) (ticks k).now with
    | none => rfl
    | some axis =>
      by_cases hd : axis = .dwell
      · exact absurd (hd ▸ h) (engaging_ne_dwell hl)
      · exact absurd (two_nodes_of_engaging hv hd h) hso
  refine ⟨openAttempts, hv, ?_⟩
  rw [judgedState_eq hv]
  obtain ⟨hf, -⟩ := finalized_run hv
  generalize verdict ticks k = v at hf
  cases hf with
  | drained _ _ _ _ hw =>
    rcases hw with h | h
    · exact absurd (he.symm.trans h) (by simp)
    · exact absurd h ha
  | breadth _ _ h | dwell _ _ _ h => exact absurd (he.symm.trans h) (by simp)
  | judged hke _ _ _ => exact ⟨hke, rfl⟩

theorem found_late (hv : (ticks k).view = some openAttempts) (hd : d ∈ [drv, drv']) :
    ∃ e, (state ticks k).found (ticks k) openAttempts n d = some e ∧ e.anchor = (ticks k).now := by
  obtain ⟨openAttempts', hv', hp, -⟩ := hs.observed k hk
  obtain rfl : openAttempts = openAttempts' := Option.some.inj (hv.symm.trans hv')
  obtain ⟨a, ha, hki, rfl, rfl, hex⟩ := hp d hd
  have hev : ((state ticks k).sweep (ticks k)).evicted.lookup a.sourceNode = none := by
    rw [lookup_evicted_sweep_of_stays (hs.unreaped k hk) (hs.registered k hk)]
    exact hs.evicted_eq_none hclock hk hlate
  have hg : ((state ticks k).sweep (ticks k)).gated (ticks k).now
      (a.expiryPg (ticks k).now) = false := hs.not_gated hclock hk hlate _
  have hac : ((state ticks k).sweep (ticks k)).accepts (ticks k).registered (ticks k).now a := by
    simp [WedgeTracker.accepts, hki, hs.named, hev, hs.registered k hk, hex, hg]
  obtain ⟨e, he⟩ := found_isSome ha hac
  refine ⟨e, he, ?_⟩
  obtain ⟨_, _, _, _, _, _, _, _, _, _, _, rfl⟩ := accepted_found he
  rfl

theorem anew (hd : d ∈ [drv, drv']) (hab : (state ticks k).evidence.entry n d = none) :
    ∃ e, (judgedState ticks k).evidence.entry n d = some e ∧ e.anchor = (ticks k).now := by
  obtain ⟨openAttempts, hv, -⟩ := hs.observed k hk
  obtain ⟨e, he, ha⟩ := hs.found_late hclock hk hlate hv hd
  refine ⟨e, ?_, ha⟩
  rw [judgedState_eq hv, entry_fold, hab, ite_self, he, Option.filter_eq_some_iff]
  exact ⟨rfl, by simp [Evidence.inWindow, ha, wedgeClusterWindowSecs]⟩

omit hclock hlate in
theorem held (ho : (state ticks k).evidence.entry n d = some e)
    (hw : (ticks k).now - e.anchor ≤ wedgeClusterWindowSecs) :
    (judgedState ticks k).evidence.entry n d = some e := by
  obtain ⟨openAttempts, hv, -⟩ := hs.observed k hk
  rw [judgedState_eq hv, entry_fold, if_neg (by
    rw [not_or, not_not]
    exact ⟨hs.unreaped k hk, hs.registered k hk⟩), ho, Option.filter_eq_some_iff]
  exact ⟨rfl, decide_eq_true hw⟩

theorem lists_of_both (h : ∃ e, (judgedState ticks k).evidence.entry n drv = some e)
    (h' : ∃ e, (judgedState ticks k).evidence.entry n drv' = some e) :
    (verdict ticks k).lists n := by
  obtain ⟨openAttempts, hv, -, hve⟩ := hs.verdict_late hclock hk hlate
  rw [judgedState_eq hv] at h h'
  obtain ⟨e, he⟩ := h
  obtain ⟨e', he'⟩ := h'
  rw [hve]
  exact decide_eq_true (mem_wedged_fold.mpr ⟨drv, drv', e, e', hs.distinct, he, he'⟩)

theorem twice (hg : gap ≤ wedgeClusterWindowSecs) (hd : d ∈ [drv, drv'])
    (ha : (judgedState ticks k).evidence.entry n d = none) :
    (∃ e, (judgedState ticks (k + 1)).evidence.entry n d = some e) ∧
      ∃ e, (judgedState ticks (k + 2)).evidence.entry n d = some e := by
  have hlate' : ∀ j, k ≤ j → (ticks start).now + 2 * wedgeClusterWindowSecs + gap < (ticks j).now :=
    fun j hj => lt_of_lt_of_le hlate (hclock hj)
  obtain ⟨_, _, hke, _⟩ := hs.verdict_late hclock hk hlate
  obtain ⟨e, he, han⟩ := hs.anew hclock (hk.trans (Nat.le_add_right k 1))
    (hlate' _ (Nat.le_add_right k 1)) hd (hke.evidence ▸ ha)
  obtain ⟨_, _, hke', _⟩ := hs.verdict_late hclock (hk.trans (Nat.le_add_right k 1))
    (hlate' _ (Nat.le_add_right k 1))
  have hc := hs.close (k + 1) (hk.trans (Nat.le_add_right k 1))
  refine ⟨⟨e, he⟩, e, hs.held (hk.trans (Nat.le_add_right k 2)) ?_ ?_⟩
  · rw [hke'.evidence]
    exact he
  · linarith

end Late

end Stuck

/-- With ticks no further apart than the window, the node is declared dead within two windows and
four gaps, whatever the tracker went through before. -/
theorem wedged_detected (ticks : Nat → Tick) (hclock : Monotone fun k => (ticks k).now)
    (start : Nat) (gap : ℚ) (hgap : gap ≤ wedgeClusterWindowSecs) (n drv drv' : String)
    (hs : Stuck ticks start gap n drv drv') :
    ∃ k ≥ start, (ticks k).now ≤ (ticks start).now + 2 * wedgeClusterWindowSecs + 4 * gap ∧
      (verdict ticks k).lists n := by
  have hpo := hs.gap_nonneg
  have he := hs.unbounded ((ticks start).now + 2 * wedgeClusterWindowSecs + gap)
  -- the first tick after the watermark has gone
  let q := Nat.find he
  have hq := Nat.find_spec he
  have hst : start < q := by
    by_contra hle
    have hle' : (ticks q).now ≤ (ticks start).now := hclock (not_lt.mp hle)
    linarith
  obtain ⟨p, hp⟩ := Nat.exists_eq_succ_of_ne_zero (ne_zero_of_lt hst)
  have hb : (ticks p).now ≤ (ticks start).now + 2 * wedgeClusterWindowSecs + gap :=
    not_lt.mp (Nat.find_min he (by omega))
  have hc := hs.close p (by omega)
  have hclose1 := hs.close q hst.le
  have hclose2 := hs.close (q + 1) (hst.le.trans (Nat.le_add_right q 1))
  rw [show p + 1 = q from hp.symm] at hc
  have hlate : ∀ j, q ≤ j → (ticks start).now + 2 * wedgeClusterWindowSecs + gap < (ticks j).now :=
    fun j hj => lt_of_lt_of_le hq (hclock hj)
  have hl : ∀ j, q ≤ j → (∃ e, (judgedState ticks j).evidence.entry n drv = some e) →
      (∃ e, (judgedState ticks j).evidence.entry n drv' = some e) → (verdict ticks j).lists n :=
    fun j hj => hs.lists_of_both hclock (hst.le.trans hj) (hlate j hj)
  have ht : ∀ j, q ≤ j → ∀ d ∈ [drv, drv'], (judgedState ticks j).evidence.entry n d = none →
      (∃ e, (judgedState ticks (j + 1)).evidence.entry n d = some e) ∧
        ∃ e, (judgedState ticks (j + 2)).evidence.entry n d = some e :=
    fun j hj d hd => hs.twice hclock (hst.le.trans hj) (hlate j hj) hgap hd
  have hnow1 : (ticks (q + 1)).now ≤
      (ticks start).now + 2 * wedgeClusterWindowSecs + 4 * gap := by linarith
  have hnow2 : (ticks (q + 2)).now ≤ (ticks start).now + 2 * wedgeClusterWindowSecs + 4 * gap := by
    linarith
  have hq1 : q ≤ q + 1 := Nat.le_add_right q 1
  have hq2 : q ≤ q + 2 := Nat.le_add_right q 2
  -- each derivation is missing at no more than one of three ticks
  cases hdv : (judgedState ticks q).evidence.entry n drv with
  | none =>
    obtain ⟨hf, hse⟩ := ht q le_rfl drv (by simp) hdv
    cases hdv' : (judgedState ticks (q + 1)).evidence.entry n drv' with
    | none =>
      obtain ⟨hth, -⟩ := ht (q + 1) hq1 drv' (by simp) hdv'
      exact ⟨q + 2, hst.le.trans hq2, hnow2, hl _ hq2 hse hth⟩
    | some e => exact ⟨q + 1, hst.le.trans hq1, hnow1, hl _ hq1 hf ⟨e, hdv'⟩⟩
  | some e =>
    cases hdv' : (judgedState ticks q).evidence.entry n drv' with
    | none =>
      obtain ⟨hf, hse⟩ := ht q le_rfl drv' (by simp) hdv'
      cases ha : (judgedState ticks (q + 1)).evidence.entry n drv with
      | none =>
        obtain ⟨hth, -⟩ := ht (q + 1) hq1 drv (by simp) ha
        exact ⟨q + 2, hst.le.trans hq2, hnow2, hl _ hq2 hth hse⟩
      | some e' => exact ⟨q + 1, hst.le.trans hq1, hnow1, hl _ hq1 ⟨e', ha⟩ hf⟩
    | some e' =>
      exact ⟨q, hst.le, by linarith, hl q le_rfl ⟨e, hdv⟩ ⟨e', hdv'⟩⟩

theorem clock_of_period (ticks : Nat → Tick) {period : ℚ} (hp : 0 < period)
    (h : ∀ k : Nat, (ticks k).now = period * k) :
    (∀ k, (ticks (k + 1)).now = (ticks k).now + period) ∧ ∀ time, ∃ k, time < (ticks k).now := by
  constructor
  · intro k
    rw [h, h, Nat.cast_succ, mul_add_one]
  · intro time
    obtain ⟨k, hk⟩ := exists_nat_gt (time / period)
    exact ⟨k, by rwa [h, ← div_lt_iff₀' hp]⟩

theorem sampleTicks_stuck : Stuck sampleTicks 1 600 "n1" "a" "b" := by
  obtain ⟨hc, hu⟩ := clock_of_period sampleTicks (by norm_num) fun _ => rfl
  refine ⟨by decide, by decide, fun k hk => ⟨_, rfl, ?_⟩, fun k _ => by simp [sampleTicks],
    fun k hk => by simp [sampleTicks, Nat.ne_of_gt hk], fun k _ => (hc k).le,
    fun k _ => by rw [hc]; norm_num, hu⟩
  rw [if_neg (by omega)]
  decide

theorem wedged_detected_afterSuppression :
    (verdict sampleTicks 0).sharedCause ∧ ((state sampleTicks 1).evicted.lookup "n1").isSome ∧
      ∃ k ≥ 1, (sampleTicks k).now ≤
        (sampleTicks 1).now + 2 * wedgeClusterWindowSecs + 4 * 600 ∧
        (verdict sampleTicks k).lists "n1" :=
  ⟨by decide +kernel, by decide +kernel, wedged_detected sampleTicks
    (monotone_of_period (by norm_num) fun _ => rfl) 1 600 (by norm_num [wedgeClusterWindowSecs])
    "n1" "a" "b" sampleTicks_stuck⟩

def sparseTicks (k : Nat) : Tick where
  view := some (if k = 0 then [⟨"a", "n1", 200, 5, 100, .build⟩] else
    [⟨"a", "n1", 200, 5, 100, .build⟩, ⟨"b", "n1", 300, 7, 100, .build⟩])
  reapedSinceLast := ∅
  registered := {"n1", "n2", "n3"}
  now := 2000 * k

theorem sparseTicks_stuck : Stuck sparseTicks 1 2000 "n1" "a" "b" := by
  obtain ⟨hc, hu⟩ := clock_of_period sparseTicks (by norm_num) fun _ => rfl
  refine ⟨by decide, by decide, fun k hk => ⟨_, rfl, ?_⟩, fun k _ => by simp [sparseTicks],
    fun k _ => by simp [sparseTicks], fun k _ => (hc k).le, fun k _ => by rw [hc]; norm_num, hu⟩
  rw [if_neg (by omega)]
  decide

/-- Each tick then lets one of the two age out that the tick before has anchored. -/
theorem sparse_undetected :
    (Monotone fun k => (sparseTicks k).now) ∧ Stuck sparseTicks 1 2000 "n1" "a" "b" ∧
      ∀ k ≥ 1, (sparseTicks k).now ≤ (sparseTicks 1).now + 2 * wedgeClusterWindowSecs + 4 * 2000 →
        (verdict sparseTicks k).lists "n1" = false := by
  refine ⟨monotone_of_period (by norm_num) fun _ => rfl, sparseTicks_stuck, fun k hk hn => ?_⟩
  have hlt : k < 7 := by
    simp only [sparseTicks, wedgeClusterWindowSecs] at hn
    have : (k : ℚ) < 7 := by
      push_cast at hn
      linarith
    exact_mod_cast this
  have ha : ∀ k < 7, (verdict sparseTicks k).lists "n1" = false := by decide +kernel
  exact ha k hlt

end RioBuild.Wedge
