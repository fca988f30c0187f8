import RioBuild.Wedge.History

namespace RioBuild.Wedge

open Lib

theorem judged_of_nodeWedged (hv : verdict ticks k = .nodeWedged nodes) (hn : n ∈ nodes) :
    ∃ openAttempts, (ticks k).view = some openAttempts ∧
      nodes = ((state ticks k).populations (ticks k) openAttempts).wedged ∧
      Keeps ((state ticks k).fold (ticks k) openAttempts) (state ticks (k + 1)) ∧
      (state ticks k).axis ≠ some .breadth ∧ ((state ticks k).fold (ticks k) openAttempts).engaging
        ((state ticks k).populations (ticks k) openAttempts) (ticks k).now = none := by
  cases hvw : (ticks k).view with
  | none =>
    rw [verdict, update_unobserved hvw] at hv
    exact absurd hv (by simp)
  | some openAttempts =>
    obtain ⟨hf, -⟩ := finalized_run hvw
    rw [hv] at hf
    cases hf with
    | drained _ _ _ hl _ =>
      have hno := hl n
      simp [WedgeVerdict.lists, hn] at hno
    | judged hk hb _ he =>
      exact ⟨openAttempts, rfl, rfl, hk, hb, he⟩

theorem not_shared_iff :
    WedgeTracker.shared count population = false ↔ count ≤ 1 ∨ 2 * count ≤ population := by
  simp only [WedgeTracker.shared, Bool.and_eq_false_iff, decide_eq_false_iff_not]
  omega

theorem engaging_eq_none {t : WedgeTracker} (h : t.engaging p now = none) :
    WedgeTracker.shared p.wedged.card p.population = false ∧
      WedgeTracker.shared p.breadth p.population = false ∧
      (p.wedged.Nonempty → ∀ w, t.lastSuppression = some w →
        wedgeVerdictDwellSecs < now - w.setAt) := by
  unfold WedgeTracker.engaging at h
  simp only at h
  split at h
  · exact absurd h (by simp)
  · rename_i hr
    split at h
    · exact absurd h (by simp)
    · rename_i hb
      split at h
      · exact absurd h (by simp)
      · rename_i hd
        refine ⟨by simpa using hr, by simpa using hb, fun hne w hw => ?_⟩
        by_contra hle
        have ha : now ≤ wedgeVerdictDwellSecs + w.setAt := by linarith
        exact hd (by simp [hw, ha, hne.ne_empty])

/-- A node declared dead is registered and was not reaped within the window; two derivations were
observed on it within the window, after the last tick that saw a shared cause, each newer than all
that was drained in the window before; no shared cause was seen within the dwell; and neither the
nodes declared dead nor those with evidence are more than one and more than half of the fleet. -/
theorem wedged_fresh (ticks : Nat → Tick) (hclock : Monotone fun k => (ticks k).now) (k : Nat)
    (n : String) (nodes : Finset String) (hverdict : verdict ticks k = .nodeWedged nodes)
    (hn : n ∈ nodes) : n ∈ (ticks k).registered ∧
    (∀ j ≤ k, n ∈ (ticks j).reapedSinceLast →
      wedgeClusterWindowSecs < (ticks k).now - (ticks j).now) ∧
    (∃ d d', d ≠ d' ∧ ∀ drv ∈ [d, d'], ∃ i ≤ k, ∃ e, Anchored ticks i n drv e ∧
      (ticks k).now - (ticks i).now ≤ wedgeClusterWindowSecs ∧
      ∀ j < k, (verdict ticks j).sharedCause → j < i) ∧
    (∀ j < k, (verdict ticks j).sharedCause →
      wedgeVerdictDwellSecs < (ticks k).now - (ticks j).now) ∧
    (nodes.card ≤ 1 ∨ 2 * nodes.card ≤ (ticks k).registered.card) ∧
    ((state ticks (k + 1)).evidence.keys.card ≤ 1 ∨
      2 * (state ticks (k + 1)).evidence.keys.card ≤ (ticks k).registered.card) := by
  obtain ⟨openAttempts, hv, rfl, hke, hb, hen⟩ :=
    judged_of_nodeWedged hverdict hn
  obtain ⟨hr, hevi, hdw⟩ := engaging_eq_none hen
  rw [population_fold] at hr hevi
  rw [breadth_fold, ← hke.evidence] at hevi
  have hk := known_run hclock k
  obtain ⟨d, d', e, e', hne, he, he'⟩ := mem_wedged_fold.mp hn
  refine ⟨(registered_of_fold he).2, fun j hj hrp => ?_, ⟨d, d', hne, ?_⟩,
    fun j hj hc => ?_, not_shared_iff.mp hr, not_shared_iff.mp hevi⟩
  · rcases lt_or_eq_of_le hj with hj | rfl
    · rcases hk.reaped j hj n hrp with ⟨at_, hat, -⟩ | hp
      · rw [hk.evicted_eq_none_of_fold he] at hat
        exact absurd hat (by simp)
      · exact hp.lt_sub hclock
    · exact absurd hrp (registered_of_fold he).1
  · have ha : ∀ drv ev,
        ((state ticks k).fold (ticks k) openAttempts).evidence.entry n drv = some ev →
        ∃ i ≤ k, ∃ ev, Anchored ticks i n drv ev ∧
          (ticks k).now - (ticks i).now ≤ wedgeClusterWindowSecs ∧
          ∀ j < k, (verdict ticks j).sharedCause → j < i := by
      intro drv ev hev
      obtain ⟨i, hi, ha, hs⟩ := hk.anchored_fold hclock hv hev
      have hwi := inWindow_of_fold hev
      have hanc : ev.anchor = (ticks i).now := by
        obtain ⟨⟨_, _, _, _, _, _, _, _, _, rfl⟩, _⟩ := ha
        rfl
      rw [Evidence.inWindow, hanc] at hwi
      exact ⟨i, Nat.lt_succ_iff.mp hi, ev, ha, of_decide_eq_true hwi, hs hb⟩
    intro drv hd
    rcases List.mem_cons.mp hd with rfl | hd
    · exact ha _ _ he
    · rw [List.mem_singleton.mp hd]
      exact ha _ _ he'
  · have hf := (hk.fold hclock hv).shared j hj hc
    have hwi : wedgeVerdictDwellSecs < wedgeClusterWindowSecs := by
      norm_num [wedgeVerdictDwellSecs, wedgeClusterWindowSecs]
    rcases hf with ⟨w, hw, hse⟩ | hax | hp
    · have := hdw ⟨n, hn⟩ w hw
      linarith
    · exact absurd hax hb
    · obtain ⟨i, hi, hlt⟩ := hp
      have hle : (ticks i).now ≤ (ticks k).now := hclock (Nat.lt_succ_iff.mp hi)
      linarith

theorem monotone_of_period {ticks : Nat → Tick} {period : ℚ} (hp : 0 ≤ period)
    (h : ∀ k : Nat, (ticks k).now = period * k) : Monotone fun k => (ticks k).now := by
  intro j k hle
  simp only [h]
  exact mul_le_mul_of_nonneg_left (Nat.cast_le.mpr hle) hp

/-- At the first tick one node is reaped and the other two hang; then the first one hangs. -/
def sampleTicks (k : Nat) : Tick where
  view := some (if k = 0 then [⟨"a", "n2", 200, 5, 100, .build⟩, ⟨"b", "n2", 300, 7, 100, .build⟩,
      ⟨"c", "n3", 200, 5, 100, .build⟩, ⟨"d", "n3", 300, 7, 100, .build⟩] else
    [⟨"a", "n1", 200, 9, 100, .build⟩, ⟨"b", "n1", 300, 11, 100, .build⟩])
  reapedSinceLast := if k = 0 then {"n1"} else ∅
  registered := {"n1", "n2", "n3"}
  now := 600 * k

theorem wedged_fresh_afterSuppression :
    (verdict sampleTicks 0).sharedCause ∧ "n1" ∈ (sampleTicks 0).reapedSinceLast ∧
      verdict sampleTicks 5 = .nodeWedged {"n1"} ∧
      wedgeClusterWindowSecs < (sampleTicks 5).now - (sampleTicks 0).now ∧
      ∃ d d', d ≠ d' ∧ ∀ drv ∈ [d, d'], ∃ i ≤ 5, ∃ e, Anchored sampleTicks i "n1" drv e ∧
        (sampleTicks 5).now - (sampleTicks i).now ≤ wedgeClusterWindowSecs ∧ 0 < i := by
  have hc : (verdict sampleTicks 0).sharedCause := by decide +kernel
  have hv : verdict sampleTicks 5 = .nodeWedged {"n1"} := by decide +kernel
  have hr : "n1" ∈ (sampleTicks 0).reapedSinceLast := by decide
  obtain ⟨-, hre, ⟨d, d', hne, ha⟩, -⟩ := wedged_fresh sampleTicks
    (monotone_of_period (by norm_num) fun _ => rfl) 5 "n1" {"n1"} hv (by simp)
  refine ⟨hc, hr, hv, hre 0 (by decide) hr, d, d', hne, fun drv hd => ?_⟩
  obtain ⟨i, hi, e, he, hw, hj⟩ := ha drv hd
  exact ⟨i, hi, e, he, hw, hj 0 (by decide) hc⟩

end RioBuild.Wedge
