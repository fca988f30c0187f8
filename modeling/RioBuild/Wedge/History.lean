import RioBuild.Wedge.Verdict

namespace RioBuild.Wedge

open Lib

variable {ticks : Nat → Tick} {j k : Nat} {t : WedgeTracker} {n d : String} {e : Evidence}
  {openAttempts : List OpenAttempt} {tick : Tick}

section

variable (h : (t.fold tick openAttempts).evidence.entry n d = some e)
include h

theorem inWindow_of_fold : e.inWindow tick.now := by
  rw [entry_fold] at h
  exact (Option.filter_eq_some_iff.mp h).2

theorem fold_cases :
    (n ∉ tick.reapedSinceLast ∧ n ∈ tick.registered ∧ t.evidence.entry n d = some e) ∨
      t.found tick openAttempts n d = some e := by
  rw [entry_fold] at h
  rcases Option.or_eq_some_iff.mp (Option.filter_eq_some_iff.mp h).1 with ho | ⟨-, hn⟩
  · split at ho
    · exact absurd ho (by simp)
    · rename_i hs
      rw [not_or, not_not] at hs
      exact .inl ⟨hs.1, hs.2, ho⟩
  · exact .inr hn

end

theorem accepted_found (h : t.found tick openAttempts n d = some e) :
    n ∉ tick.reapedSinceLast ∧ n ∈ tick.registered ∧ t.evicted.lookup n = none ∧
      t.gated tick.now e.expiryPg = false ∧
      ∃ a ∈ openAttempts, a.attemptKind = .build ∧ a.sourceNode = n ∧ n ≠ "" ∧ a.intentId = d ∧
        a.expired ∧ e = { anchor := tick.now, expiryPg := a.expiryPg tick.now } := by
  obtain ⟨a, hm, ha, rfl, rfl, rfl⟩ := found_eq_some h
  simp only [WedgeTracker.accepts, Bool.and_eq_true, decide_eq_true_eq, Bool.not_eq_true',
    Option.isNone_iff_eq_none] at ha
  obtain ⟨⟨⟨⟨⟨hk, hn⟩, he⟩, hre⟩, hex⟩, hg⟩ := ha
  have hr : a.sourceNode ∉ tick.reapedSinceLast := fun hr => by
    rw [lookup_evicted_sweep_of_reaped hr] at he
    exact absurd he (by simp)
  rw [lookup_evicted_sweep_of_stays hr hre] at he
  exact ⟨hr, hre, he, hg, a, hm, hk, rfl, hn, rfl, hex, rfl⟩

theorem registered_of_fold (h : (t.fold tick openAttempts).evidence.entry n d = some e) :
    n ∉ tick.reapedSinceLast ∧ n ∈ tick.registered := by
  rcases fold_cases h with ⟨hrp, hr, -⟩ | hf
  · exact ⟨hrp, hr⟩
  · obtain ⟨hrp, hr, -⟩ := accepted_found hf
    exact ⟨hrp, hr⟩

theorem mem_keys_fold : n ∈ (t.fold tick openAttempts).evidence.keys ↔
    ∃ d e, (t.fold tick openAttempts).evidence.entry n d = some e := mem_keys_prune

def WedgeTracker.populations (t : WedgeTracker) (tick : Tick) (openAttempts : List OpenAttempt) :
    WedgePopulations :=
  .fromWindow (t.fold tick openAttempts).evidence tick.registered tick.now

theorem population_fold : (t.populations tick openAttempts).population = tick.registered.card := by
  refine congrArg Finset.card (Finset.union_eq_right.mpr fun n hn => ?_)
  obtain ⟨d, e, h⟩ := mem_keys_fold.mp hn
  exact (registered_of_fold h).2

theorem breadth_fold : (t.populations tick openAttempts).breadth =
    (t.fold tick openAttempts).evidence.keys.card := by
  refine congrArg Finset.card (Finset.ext fun n => ?_)
  rw [Map.mem_keysWhere]
  constructor
  · rintro ⟨perNode, hp, -⟩
    exact Finmap.mem_keys.mpr (Finmap.mem_iff.mpr ⟨perNode, hp⟩)
  · intro hn
    obtain ⟨d, e, h⟩ := mem_keys_fold.mp hn
    obtain ⟨perNode, hp, hd⟩ := Option.bind_eq_some_iff.mp h
    exact ⟨perNode, hp, decide_eq_true ⟨d, Map.mem_keysWhere.mpr ⟨e, hd, inWindow_of_fold h⟩⟩⟩

theorem mem_wedged_fold : n ∈ (t.populations tick openAttempts).wedged ↔
    ∃ d d' e e', d ≠ d' ∧ (t.fold tick openAttempts).evidence.entry n d = some e ∧
      (t.fold tick openAttempts).evidence.entry n d' = some e' := by
  change n ∈ Map.keysWhere _ _ ↔ _
  rw [Map.mem_keysWhere]
  constructor
  · rintro ⟨perNode, hp, hc⟩
    obtain ⟨d, hd, d', hd', hne⟩ := Finset.one_lt_card.mp (of_decide_eq_true hc)
    obtain ⟨e, he, -⟩ := Map.mem_keysWhere.mp hd
    obtain ⟨e', he', -⟩ := Map.mem_keysWhere.mp hd'
    exact ⟨d, d', e, e', hne, Option.bind_eq_some_iff.mpr ⟨perNode, hp, he⟩,
      Option.bind_eq_some_iff.mpr ⟨perNode, hp, he'⟩⟩
  · rintro ⟨d, d', e, e', hne, h, h'⟩
    obtain ⟨perNode, hp, hdv⟩ := Option.bind_eq_some_iff.mp h
    obtain ⟨perNode', hp', hdv'⟩ := Option.bind_eq_some_iff.mp h'
    obtain rfl : perNode = perNode' := Option.some.inj (hp.symm.trans hp')
    refine ⟨perNode, hp, decide_eq_true (Finset.one_lt_card.mpr ⟨d, ?_, d', ?_, hne⟩)⟩
    · exact Map.mem_keysWhere.mpr ⟨e, hdv, inWindow_of_fold h⟩
    · exact Map.mem_keysWhere.mpr ⟨e', hdv', inWindow_of_fold h'⟩

theorem update_unobserved (h : tick.view = none) : t.update tick = (t.sweep tick, .unobserved) := by
  simp only [WedgeTracker.update, h]
  rfl

theorem update_observed (h : tick.view = some openAttempts) :
    t.update tick = (t.fold tick openAttempts).finalize (some (t.populations tick openAttempts))
      tick.now := by
  simp only [WedgeTracker.update, h]
  rfl

/-- An expiry in the window that tick `j` judged, and no longer in the one it left. -/
def Drained (ticks : Nat → Tick) (j : Nat) (expiry : Nat) : Prop :=
  ∃ openAttempts, (ticks j).view = some openAttempts ∧ ∃ n d e,
    ((state ticks j).fold (ticks j) openAttempts).evidence.entry n d = some e ∧
      e.expiryPg = expiry ∧ (state ticks (j + 1)).evidence.entry n d = none

/-- Tick `i` has the derivation in its view as an open build attempt on the node, past deadline
and grace, with an expiry newer than all that was drained in the window before. -/
def Anchored (ticks : Nat → Tick) (i : Nat) (n d : String) (e : Evidence) : Prop :=
  (∃ openAttempts, (ticks i).view = some openAttempts ∧ ∃ a ∈ openAttempts,
    a.attemptKind = .build ∧ a.sourceNode = n ∧ n ≠ "" ∧ a.intentId = d ∧ a.expired ∧
      e = { anchor := (ticks i).now, expiryPg := a.expiryPg (ticks i).now }) ∧
  ∀ j < i, (ticks i).now - (ticks j).now ≤ wedgeClusterWindowSecs →
    ∀ expiry, Drained ticks j expiry → expiry < e.expiryPg

def Past (ticks : Nat → Tick) (k j : Nat) : Prop :=
  ∃ i < k, wedgeClusterWindowSecs < (ticks i).now - (ticks j).now

theorem Past.succ (h : Past ticks k j) : Past ticks (k + 1) j := by
  obtain ⟨i, hi, hp⟩ := h
  exact ⟨i, hi.trans (Nat.lt_succ_self k), hp⟩

theorem Past.lt_sub (hclock : Monotone fun k => (ticks k).now) (h : Past ticks k j) :
    wedgeClusterWindowSecs < (ticks k).now - (ticks j).now := by
  obtain ⟨i, hi, hp⟩ := h
  have hle : (ticks i).now ≤ (ticks k).now := hclock hi.le
  linarith

structure Known (ticks : Nat → Tick) (seen judged : Nat) (t : WedgeTracker) : Prop where
  entries : ∀ {n d e}, t.evidence.entry n d = some e → ∃ i < seen, Anchored ticks i n d e ∧
    (t.axis ≠ some .breadth → ∀ j < judged, (verdict ticks j).sharedCause → j < i)
  apart : ∀ {n d e}, t.evidence.entry n d = some e → t.evicted.lookup n = none
  tombstones : ∀ {n at_}, t.evicted.lookup n = some at_ → ∃ i < seen, at_ = (ticks i).now
  watermark : ∀ {w}, t.lastSuppression = some w → ∃ i < seen, w.setAt = (ticks i).now
  reaped : ∀ j < seen, ∀ n ∈ (ticks j).reapedSinceLast,
    (∃ at_, t.evicted.lookup n = some at_ ∧ (ticks j).now ≤ at_) ∨ Past ticks seen j
  drains : ∀ j < judged, ∀ expiry, Drained ticks j expiry →
    (∃ w, t.lastSuppression = some w ∧ expiry ≤ w.maxExpiryPg ∧ (ticks j).now ≤ w.setAt) ∨
      Past ticks seen j
  shared : ∀ j < judged, (verdict ticks j).sharedCause →
    (∃ w, t.lastSuppression = some w ∧ (ticks j).now ≤ w.setAt) ∨ t.axis = some .breadth ∨
      Past ticks seen j

theorem Known.start (ticks : Nat → Tick) : Known ticks 0 0 {} where
  entries h := by simp [Window.entry] at h
  apart h := by simp [Window.entry] at h
  tombstones h := by simp at h
  watermark h := by simp at h
  reaped j hj := absurd hj (Nat.not_lt_zero j)
  drains j hj := absurd hj (Nat.not_lt_zero j)
  shared j hj := absurd hj (Nat.not_lt_zero j)

theorem watermark_fold (hw : t.lastSuppression = some w) (hs : (ticks j).now ≤ w.setAt) :
    (t.fold (ticks k) openAttempts).lastSuppression = some w ∨ Past ticks (k + 1) j := by
  by_cases hl : w.live (ticks k).now
  · exact .inl (by simp [hw, hl])
  · refine .inr ⟨k, Nat.lt_succ_self k, ?_⟩
    simp only [Suppression.live, decide_eq_true_eq] at hl
    linarith

section Step

variable (hclock : Monotone fun k => (ticks k).now) (hknown : Known ticks k k t)
include hclock hknown

theorem Known.lt_of_not_gated (hg : t.gated (ticks k).now expiry = false) (hj : j < k)
    (hwi : (ticks k).now - (ticks j).now ≤ wedgeClusterWindowSecs)
    (hd : Drained ticks j drained) : drained < expiry := by
  rcases hknown.drains j hj drained hd with ⟨w, hw, hle, hs⟩ | hp
  · have hl : w.live (ticks k).now = true := by
      simp only [Suppression.live, decide_eq_true_eq]
      linarith
    by_contra hn
    simp [WedgeTracker.gated, hw, hl] at hg
    omega
  · exact absurd (hp.lt_sub hclock) (not_lt.mpr hwi)

theorem Known.anchored_fold (hv : (ticks k).view = some openAttempts)
    (h : (t.fold (ticks k) openAttempts).evidence.entry n d = some e) :
    ∃ i < k + 1, Anchored ticks i n d e ∧
      (t.axis ≠ some .breadth → ∀ j < k, (verdict ticks j).sharedCause → j < i) := by
  rcases fold_cases h with ⟨-, -, ho⟩ | hf
  · obtain ⟨i, hi, ha, hs⟩ := hknown.entries ho
    exact ⟨i, hi.trans (Nat.lt_succ_self k), ha, hs⟩
  · obtain ⟨-, -, -, hg, hat⟩ := accepted_found hf
    refine ⟨k, Nat.lt_succ_self k, ⟨⟨openAttempts, hv, hat⟩, ?_⟩, fun _ j hj _ => hj⟩
    intro j hj hw expiry hd
    exact hknown.lt_of_not_gated hclock hg hj hw hd

omit hclock in
theorem Known.evicted_eq_none_of_fold
    (h : (t.fold (ticks k) openAttempts).evidence.entry n d = some e) :
    t.evicted.lookup n = none := by
  rcases fold_cases h with ⟨-, -, ho⟩ | hf
  · exact hknown.apart ho
  · exact (accepted_found hf).2.2.1

omit hclock in
theorem Known.tombstones_sweep (h : (t.sweep (ticks k)).evicted.lookup n = some at_) :
    ∃ i < k + 1, at_ = (ticks i).now := by
  rcases lookup_evicted_sweep t (ticks k) n with heq | heq
  · rw [heq] at h
    obtain ⟨i, hi, ha⟩ := hknown.tombstones h
    exact ⟨i, hi.trans (Nat.lt_succ_self k), ha⟩
  · rw [heq] at h
    exact ⟨k, Nat.lt_succ_self k, (Option.some.inj h).symm⟩

theorem Known.reaped_sweep (hj : j < k + 1) (hn : n ∈ (ticks j).reapedSinceLast) :
    (∃ at_, (t.sweep (ticks k)).evicted.lookup n = some at_ ∧ (ticks j).now ≤ at_) ∨
      Past ticks (k + 1) j := by
  rcases Nat.lt_succ_iff_lt_or_eq.mp hj with hj | rfl
  · rcases hknown.reaped j hj n hn with ⟨at_, ha, hle⟩ | hp
    · rcases lookup_evicted_sweep t (ticks k) n with heq | heq
      · exact .inl ⟨at_, heq.trans ha, hle⟩
      · exact .inl ⟨_, heq, hclock hj.le⟩
    · exact .inr hp.succ
  · exact .inl ⟨_, lookup_evicted_sweep_of_reaped hn, le_rfl⟩

theorem Known.sweep : Known ticks (k + 1) k (t.sweep (ticks k)) where
  entries {n d e} h := by
    rw [entry_sweep] at h
    split at h
    · exact absurd h (by simp)
    · obtain ⟨i, hi, ha, hs⟩ := hknown.entries h
      exact ⟨i, hi.trans (Nat.lt_succ_self k), ha, hs⟩
  apart {n d e} h := by
    rw [entry_sweep] at h
    split at h
    · exact absurd h (by simp)
    · rename_i hsy
      rw [not_or, not_not] at hsy
      rw [lookup_evicted_sweep_of_stays hsy.1 hsy.2]
      exact hknown.apart h
  tombstones h := hknown.tombstones_sweep h
  watermark h := by
    obtain ⟨i, hi, hse⟩ := hknown.watermark h
    exact ⟨i, hi.trans (Nat.lt_succ_self k), hse⟩
  reaped j hj n hn := hknown.reaped_sweep hclock hj hn
  drains j hj expiry hd := (hknown.drains j hj expiry hd).imp_right Past.succ
  shared j hj hs := (hknown.shared j hj hs).imp_right (Or.imp_right Past.succ)

theorem Known.fold (hv : (ticks k).view = some openAttempts) :
    Known ticks (k + 1) k (t.fold (ticks k) openAttempts) where
  entries h := by
    obtain ⟨i, hi, han, hsh⟩ := hknown.anchored_fold hclock hv h
    exact ⟨i, hi, han, hsh⟩
  apart {n d e} h := by
    obtain ⟨hrp, hr⟩ := registered_of_fold h
    by_contra hne
    obtain ⟨at_, ha⟩ := Option.ne_none_iff_exists'.mp hne
    have ho := (lookup_evicted_fold.mp ha).1
    rcases lookup_evicted_observe (t.sweep (ticks k)) openAttempts (ticks k).registered
      (ticks k).now n with heq | ⟨-, hno⟩
    · rw [heq, lookup_evicted_sweep_of_stays hrp hr, hknown.evicted_eq_none_of_fold h]
        at ho
      exact absurd ho (by simp)
    · exact hno hr
  tombstones {n at_} h := by
    have ho := (lookup_evicted_fold.mp h).1
    rcases lookup_evicted_observe (t.sweep (ticks k)) openAttempts (ticks k).registered
      (ticks k).now n with heq | ⟨heq, -⟩
    · rw [heq] at ho
      exact hknown.tombstones_sweep ho
    · rw [heq] at ho
      exact ⟨k, Nat.lt_succ_self k, (Option.some.inj ho).symm⟩
  watermark {w} h := by
    rw [lastSuppression_fold, Option.filter_eq_some_iff] at h
    obtain ⟨i, hi, hs⟩ := hknown.watermark h.1
    exact ⟨i, hi.trans (Nat.lt_succ_self k), hs⟩
  reaped j hj n hn := by
    rcases hknown.reaped_sweep hclock hj hn with ⟨at_, ha, hle⟩ | hp
    · have ho : ((t.sweep (ticks k)).observe openAttempts (ticks k).registered
          (ticks k).now).evicted.lookup n = some at_ ∨
          ((t.sweep (ticks k)).observe openAttempts (ticks k).registered
            (ticks k).now).evicted.lookup n = some (ticks k).now := by
        rcases lookup_evicted_observe (t.sweep (ticks k)) openAttempts (ticks k).registered
          (ticks k).now n with heq | ⟨heq, -⟩
        · exact .inl (heq.trans ha)
        · exact .inr heq
      rcases ho with ho | ho
      · by_cases hl : (ticks k).now - at_ ≤ wedgeClusterWindowSecs
        · exact .inl ⟨at_, lookup_evicted_fold.mpr ⟨ho, hl⟩, hle⟩
        · exact .inr ⟨k, Nat.lt_succ_self k, by linarith⟩
      · refine .inl ⟨_, lookup_evicted_fold.mpr ⟨ho, ?_⟩, hclock (Nat.lt_succ_iff.mp hj)⟩
        simp [wedgeClusterWindowSecs]
    · exact .inr hp
  drains j hj expiry hd := by
    rcases hknown.drains j hj expiry hd with ⟨w, hw, hle, hs⟩ | hp
    · exact (watermark_fold hw hs).imp_left fun h => ⟨w, h, hle, hs⟩
    · exact .inr hp.succ
  shared j hj hsh := by
    rcases hknown.shared j hj hsh with ⟨w, hw, hs⟩ | hb | hp
    · rcases watermark_fold hw hs with h | hp
      · exact .inl ⟨w, h, hs⟩
      · exact .inr (.inr hp)
    · exact .inr (.inl hb)
    · exact .inr (.inr hp.succ)

end Step

theorem Drains.entry_eq_none (h : Drains t t' now) : t'.evidence.entry n d = none := by
  rw [h.evidence]
  rfl

theorem Known.drained (hclock : Monotone fun k => (ticks k).now) (hf : Known ticks (k + 1) k f)
    (hl : ∀ w, f.lastSuppression = some w → w.live (ticks k).now)
    (hne : ∀ expiry, Drained ticks k expiry →
      ∃ n d e, f.evidence.entry n d = some e ∧ e.expiryPg = expiry)
    (hd : Drains f t' (ticks k).now) (hev : t'.evicted = f.evicted) :
    Known ticks (k + 1) (k + 1) t' where
  entries h := absurd h (by simp [hd.entry_eq_none])
  apart h := absurd h (by simp [hd.entry_eq_none])
  tombstones h := hf.tombstones (hev ▸ h)
  watermark h := by
    rw [hd.lastSuppression] at h
    exact ⟨k, Nat.lt_succ_self k, by rw [← Option.some.inj h]; rfl⟩
  reaped j hj n hn := hev ▸ hf.reaped j hj n hn
  drains j hj expiry hdrai := by
    have hle : (ticks j).now ≤ (ticks k).now := hclock (Nat.lt_succ_iff.mp hj)
    rcases Nat.lt_succ_iff_lt_or_eq.mp hj with hj | rfl
    · rcases hf.drains j hj expiry hdrai with ⟨w, hw, hex, -⟩ | hp
      · exact .inl ⟨_, hd.lastSuppression, hex.trans (le_latch hw (hl w hw)), hle⟩
      · exact .inr hp
    · obtain ⟨n, d, e, he, rfl⟩ := hne expiry hdrai
      exact .inl ⟨_, hd.lastSuppression, expiry_le_latch he, hle⟩
  shared j hj _ := .inl ⟨_, hd.lastSuppression, hclock (Nat.lt_succ_iff.mp hj)⟩

theorem Known.kept (hf : Known ticks (k + 1) k f) (hno : ∀ expiry, ¬Drained ticks k expiry)
    (hk : Keeps f t') (he : t'.evicted = f.evicted)
    (ha : t'.axis = some .breadth ∨
      f.axis ≠ some .breadth ∧ (verdict ticks k).sharedCause = false) :
    Known ticks (k + 1) (k + 1) t' where
  entries {n d e} h := by
    rw [hk.evidence] at h
    obtain ⟨i, hi, han, hs⟩ := hf.entries h
    refine ⟨i, hi, han, fun hne j hj hc => ?_⟩
    obtain ⟨hb, hq⟩ := ha.resolve_left hne
    rcases Nat.lt_succ_iff_lt_or_eq.mp hj with hj | rfl
    · exact hs hb j hj hc
    · rw [hq] at hc
      exact absurd hc (by simp)
  apart h := by
    rw [he]
    exact hf.apart (hk.evidence ▸ h)
  tombstones h := hf.tombstones (he ▸ h)
  watermark h := hf.watermark (hk.lastSuppression ▸ h)
  reaped j hj n hn := he ▸ hf.reaped j hj n hn
  drains j hj expiry hd := by
    rcases Nat.lt_succ_iff_lt_or_eq.mp hj with hj | rfl
    · rw [hk.lastSuppression]
      exact hf.drains j hj expiry hd
    · exact absurd hd (hno expiry)
  shared j hj hc := by
    rcases ha with hb | ⟨hb, hq⟩
    · exact .inr (.inl hb)
    · rcases Nat.lt_succ_iff_lt_or_eq.mp hj with hj | rfl
      · rw [hk.lastSuppression]
        exact (hf.shared j hj hc).imp_right fun h => .inr (h.resolve_left hb)
      · rw [hq] at hc
        exact absurd hc (by simp)

theorem finalized_run (hv : (ticks k).view = some openAttempts) :
    Finalized ((state ticks k).fold (ticks k) openAttempts)
        ((state ticks k).populations (ticks k) openAttempts) (ticks k).now (state ticks (k + 1))
        (verdict ticks k) ∧
      (state ticks (k + 1)).evicted = ((state ticks k).fold (ticks k) openAttempts).evicted := by
  rw [state, verdict, update_observed hv]
  exact ⟨finalize_cases, finalize_evicted⟩

theorem not_drained_of_keeps (hv : (ticks k).view = some openAttempts)
    (hk : Keeps ((state ticks k).fold (ticks k) openAttempts) (state ticks (k + 1)))
    (expiry : Nat) : ¬Drained ticks k expiry := by
  rintro ⟨openAttempts', hv', n, d, e, he, -, hn⟩
  obtain rfl : openAttempts = openAttempts' := Option.some.inj (hv.symm.trans hv')
  rw [hk.evidence, he] at hn
  exact absurd hn (by simp)

theorem Known.succ (hclock : Monotone fun k => (ticks k).now)
    (hknown : Known ticks k k (state ticks k)) :
    Known ticks (k + 1) (k + 1) (state ticks (k + 1)) := by
  cases hvw : (ticks k).view with
  | none =>
    have hst : state ticks (k + 1) = (state ticks k).sweep (ticks k) := by
      rw [state, update_unobserved hvw]
    have hve : verdict ticks k = .unobserved := by
      rw [verdict, update_unobserved hvw]
    have hs := hknown.sweep hclock
    rw [hst]
    refine { hs with entries := ?_, drains := ?_, shared := ?_ }
    · intro n d e h
      obtain ⟨i, hi, ha, hsh⟩ := hs.entries h
      refine ⟨i, hi, ha, fun hne j hj hc => ?_⟩
      rcases Nat.lt_succ_iff_lt_or_eq.mp hj with hj | rfl
      · exact hsh hne j hj hc
      · rw [hve] at hc
        exact absurd hc (by simp [WedgeVerdict.sharedCause])
    · intro j hj expiry hd
      rcases Nat.lt_succ_iff_lt_or_eq.mp hj with hj | rfl
      · exact hs.drains j hj expiry hd
      · obtain ⟨openAttempts, hso, -⟩ := hd
        rw [hvw] at hso
        exact absurd hso (by simp)
    · intro j hj hc
      rcases Nat.lt_succ_iff_lt_or_eq.mp hj with hj | rfl
      · exact hs.shared j hj hc
      · rw [hve] at hc
        exact absurd hc (by simp [WedgeVerdict.sharedCause])
  | some openAttempts =>
    obtain ⟨hfi, hev⟩ := finalized_run hvw
    have hf := hknown.fold hclock hvw
    have hn := not_drained_of_keeps hvw
    generalize hv : verdict ticks k = v at hfi
    cases hfi with
    | drained _ hdrai hb _ _ =>
      refine hf.drained hclock (fun w hw => ?_) (fun expiry hd => ?_) hdrai hev
      · rw [lastSuppression_fold, Option.filter_eq_some_iff] at hw
        exact hw.2
      · obtain ⟨openAttempts', hvw', n, d, e, he, hex, -⟩ := hd
        obtain rfl : openAttempts = openAttempts' := Option.some.inj (hvw.symm.trans hvw')
        exact ⟨n, d, e, he, hex⟩
    | breadth hk hb _ => exact hf.kept (hn hk) hk hev (.inl hb)
    | dwell hk hb _ _ | judged hk hb _ _ =>
      exact hf.kept (hn hk) hk hev (.inr ⟨hb, by rw [hv]; rfl⟩)

theorem known_run (hclock : Monotone fun k => (ticks k).now) (k : Nat) :
    Known ticks k k (state ticks k) := by
  induction k with
  | zero => exact Known.start ticks
  | succ k ih => exact ih.succ hclock

end RioBuild.Wedge
