import RioBuild.Wedge.Tracker

namespace RioBuild.Wedge

open Lib List AdmissionAuthority

variable {t : WedgeTracker} {w : Window} {n d : String} {now : ℚ} {e : Evidence}
  {registered : Finset String} {openAttempts : List OpenAttempt} {tick : Tick}

def Window.entry (w : Window) (node drv : String) : Option Evidence :=
  (w.lookup node).bind (·.lookup drv)

theorem Window.entry_anchor : (w.anchor node drv e).entry n d =
    if n = node ∧ d = drv then (w.entry n d).or (some e) else w.entry n d := by
  unfold entry anchor
  rw [Map.lookup_insert_ite]
  by_cases hn : n = node
  · subst hn
    have hp : ∀ d, ((w.lookup n).bind (·.lookup d)) = ((w.lookup n).getD ∅).lookup d := by
      intro d
      cases w.lookup n <;> rfl
    simp only [hp]
    cases hdv : ((w.lookup n).getD ∅).lookup drv with
    | some e' | none =>
      by_cases hd : d = drv
      · subst hd
        simp [hdv]
      · simp [hd]
  · simp [hn]

theorem Window.expiry_le_maxExpiry (h : w.entry node drv = some e) : e.expiryPg ≤ w.maxExpiry := by
  obtain ⟨perNode, hn, hd⟩ := Option.bind_eq_some_iff.mp h
  have hke : ∀ {β : Type} {m : Map String β} {k : String} {v : β}, m.lookup k = some v →
      k ∈ m.keys := fun hk => Finmap.mem_keys.mpr (Finmap.mem_iff.mpr ⟨_, hk⟩)
  have hi : e.expiryPg ≤ perNode.keys.sup fun drv => (perNode.lookup drv).elim 0 (·.expiryPg) := by
    have hle := Finset.le_sup (f := fun drv => (perNode.lookup drv).elim 0 (·.expiryPg)) (hke hd)
    rwa [hd] at hle
  have ho := Finset.le_sup (f := fun node => ((w.lookup node).getD ∅).keys.sup fun drv =>
    (((w.lookup node).getD ∅).lookup drv).elim 0 (·.expiryPg)) (hke hn)
  rw [hn] at ho
  exact hi.trans ho

def WedgeTracker.accepts (t : WedgeTracker) (registered : Finset String) (now : ℚ)
    (a : OpenAttempt) : Bool :=
  a.attemptKind = .build && a.sourceNode ≠ "" && (t.evicted.lookup a.sourceNode).isNone &&
    a.sourceNode ∈ registered && a.expired && !t.gated now (a.expiryPg now)

theorem rule_eq_iff : (rule ⟨evicted, registered⟩ node = .admissible ↔
      evicted.lookup node = none ∧ node ∈ registered) ∧
    (rule ⟨evicted, registered⟩ node = .refusedGhost ↔
      evicted.lookup node = none ∧ node ∉ registered) := by
  unfold rule fleetAbsent
  cases evicted.lookup node with
  | some at_ => simp
  | none => by_cases hm : node ∈ registered <;> simp

theorem observeOne_fst : (t.observeOne registered now x a).1 = if t.accepts registered now a then
      x.1.anchor a.sourceNode a.intentId { anchor := now, expiryPg := a.expiryPg now }
    else x.1 := by
  unfold WedgeTracker.observeOne WedgeTracker.accepts
  by_cases hk : a.attemptKind = .build
  · by_cases hn : a.sourceNode = ""
    · simp [hn]
    · simp only [hk, hn, ne_eq, not_true_eq_false, if_false]
      split
      · rename_i hr
        have hno : ¬(t.evicted.lookup a.sourceNode = none ∧ a.sourceNode ∈ registered) := by
          rw [← rule_eq_iff.1, hr]
          simp
        by_cases he : t.evicted.lookup a.sourceNode = none
        · simp [not_and.mp hno he]
        · simp [he]
      · rename_i hr
        simp [(rule_eq_iff.2.mp hr).2]
      · rename_i hr
        obtain ⟨he, hm⟩ := rule_eq_iff.1.mp hr
        by_cases hex : a.expired
        · by_cases hg : t.gated now (a.expiryPg now) <;> simp [he, hm, hex, hg]
        · simp [hex]
  · simp [hk]

theorem mem_observeOne_snd (h : node ∈ (t.observeOne registered now x a).2) :
    node ∈ x.2 ∨ node ∉ registered := by
  unfold WedgeTracker.observeOne at h
  split at h
  · exact .inl h
  · split at h
    · exact .inl h
    · split at h
      · exact .inl h
      · rename_i hr
        rcases mem_append.mp h with h | h
        · exact .inl h
        · rw [mem_singleton.mp h]
          exact .inr (rule_eq_iff.2.mp hr).2
      · split at h
        · exact .inl h
        · split at h
          all_goals exact .inl h

theorem entry_foldl_observeOne : (openAttempts.foldl (t.observeOne registered now) x).1.entry n d =
    (x.1.entry n d).or ((openAttempts.find? fun a =>
      t.accepts registered now a && a.sourceNode = n && a.intentId = d).map
        fun a => { anchor := now, expiryPg := a.expiryPg now }) := by
  induction openAttempts generalizing x with
  | nil => simp
  | cons a openAttempts ih =>
    rw [foldl_cons, ih, observeOne_fst, find?_cons]
    by_cases ha : t.accepts registered now a
    · by_cases hk : n = a.sourceNode ∧ d = a.intentId
      · obtain ⟨rfl, rfl⟩ := hk
        simp [ha, Window.entry_anchor]
      · have hf : (decide (a.sourceNode = n) && decide (a.intentId = d)) = false := by
          by_contra hne
          simp only [Bool.not_eq_false, Bool.and_eq_true, decide_eq_true_eq] at hne
          exact hk ⟨hne.1.symm, hne.2.symm⟩
        rw [if_pos ha, Window.entry_anchor, if_neg hk, Bool.and_assoc, hf, Bool.and_false]
    · simp [ha]

theorem mem_foldl_observeOne_snd
    (h : node ∈ (openAttempts.foldl (t.observeOne registered now) x).2) :
    node ∈ x.2 ∨ node ∉ registered := by
  induction openAttempts generalizing x with
  | nil => exact .inl h
  | cons a openAttempts ih =>
    rcases ih h with h | h
    · exact mem_observeOne_snd h
    · exact .inr h

theorem lookup_foldl_refused (ghosts : List String) (evicted : Map String ℚ) :
    (ghosts.foldl (fun evicted node =>
      if (evicted.lookup node).isSome then evicted else evicted.insert node now) evicted).lookup n =
      (evicted.lookup n).or (if n ∈ ghosts then some now else none) := by
  induction ghosts generalizing evicted with
  | nil => simp
  | cons ghost ghosts ih =>
    rw [foldl_cons, ih]
    by_cases hn : n = ghost
    · subst hn
      cases hl : evicted.lookup n with
      | some at_ => simp [hl]
      | none => simp
    · have hs : (if (evicted.lookup ghost).isSome then evicted
          else evicted.insert ghost now).lookup n = evicted.lookup n := by
        split
        · rfl
        · rw [Map.lookup_insert_ite, if_neg hn]
      rw [hs]
      simp [hn]

theorem entry_prune : (t.prune now).evidence.entry n d =
    (t.evidence.entry n d).filter (·.inWindow now) := by
  unfold WedgeTracker.prune Window.entry
  simp only [Map.lookup_retain, Map.lookup_adjust]
  cases t.evidence.lookup n with
  | none => rfl
  | some perNode =>
    rw [Option.map_some, Option.filter_some]
    by_cases hne : (perNode.retain fun _ e => e.inWindow now).keys.Nonempty
    · simp [hne, Map.lookup_retain]
    · have hn : (perNode.retain fun _ e => e.inWindow now).lookup d = none := by
        rw [Finmap.lookup_eq_none]
        exact fun hm => hne ⟨d, hm⟩
      rw [Map.lookup_retain] at hn
      simp [hne, hn]

theorem mem_keys_prune : n ∈ (t.prune now).evidence.keys ↔
    ∃ d e, (t.prune now).evidence.entry n d = some e := by
  constructor
  · intro hm
    obtain ⟨perNode, hp⟩ := Finmap.mem_iff.mp (Finmap.mem_keys.mp hm)
    have hne : perNode.keys.Nonempty := by
      have hr := hp
      simp only [WedgeTracker.prune, Map.lookup_retain, Option.filter_eq_some_iff,
        decide_eq_true_eq] at hr
      exact hr.2
    obtain ⟨d, hd⟩ := hne
    obtain ⟨e, he⟩ := Finmap.mem_iff.mp (Finmap.mem_keys.mp hd)
    exact ⟨d, e, Option.bind_eq_some_iff.mpr ⟨perNode, hp, he⟩⟩
  · rintro ⟨d, e, he⟩
    obtain ⟨perNode, hp, -⟩ := Option.bind_eq_some_iff.mp he
    exact Finmap.mem_keys.mpr (Finmap.mem_iff.mpr ⟨perNode, hp⟩)

theorem entry_evict (nodes : Finset String) : (t.evict nodes now).evidence.entry n d =
    if n ∈ nodes then none else t.evidence.entry n d := by
  unfold WedgeTracker.evict Window.entry
  simp only [Map.lookup_retain]
  cases t.evidence.lookup n with
  | none => simp
  | some perNode => by_cases hn : n ∈ nodes <;> simp [hn, Option.filter]

theorem entry_sweep : (t.sweep tick).evidence.entry n d =
    if n ∈ tick.reapedSinceLast ∨ n ∉ tick.registered then none else t.evidence.entry n d := by
  unfold WedgeTracker.sweep
  rw [entry_evict, entry_evict]
  by_cases hrp : n ∈ tick.reapedSinceLast
  · simp [hrp]
  · by_cases hr : n ∈ tick.registered
    · simp [hr, fleetAbsent]
    · simp only [hrp, if_false, false_or]
      split_ifs with hk
      · rfl
      · by_contra hne
        obtain ⟨e, he⟩ := Option.ne_none_iff_exists'.mp hne
        obtain ⟨perNode, hp, -⟩ := Option.bind_eq_some_iff.mp he
        refine hk (Finset.mem_filter.mpr ⟨?_, by
          simp [fleetAbsent, hr]⟩)
        refine Finmap.mem_keys.mpr (Finmap.mem_iff.mpr ⟨perNode, ?_⟩)
        simp [WedgeTracker.evict, Map.lookup_retain, hp, hrp]

theorem lookup_evicted_sweep (t : WedgeTracker) (tick : Tick) (n : String) :
    (t.sweep tick).evicted.lookup n = t.evicted.lookup n ∨
      (t.sweep tick).evicted.lookup n = some tick.now := by
  unfold WedgeTracker.sweep WedgeTracker.evict
  simp only [Map.lookup_stamp]
  split
  · exact .inr rfl
  · split
    · exact .inr rfl
    · exact .inl rfl

theorem lookup_evicted_sweep_of_reaped (h : n ∈ tick.reapedSinceLast) :
    (t.sweep tick).evicted.lookup n = some tick.now := by
  unfold WedgeTracker.sweep WedgeTracker.evict
  simp only [Map.lookup_stamp]
  split <;> rfl

theorem lookup_evicted_sweep_of_stays (hrp : n ∉ tick.reapedSinceLast)
    (hr : n ∈ tick.registered) : (t.sweep tick).evicted.lookup n = t.evicted.lookup n := by
  unfold WedgeTracker.sweep WedgeTracker.evict
  simp [Map.lookup_stamp, hrp, hr, fleetAbsent]

theorem lookup_evicted_observe (t : WedgeTracker) (openAttempts : List OpenAttempt)
    (registered : Finset String) (now : ℚ) (n : String) :
    (t.observe openAttempts registered now).evicted.lookup n = t.evicted.lookup n ∨
      (t.observe openAttempts registered now).evicted.lookup n = some now ∧ n ∉ registered := by
  unfold WedgeTracker.observe
  simp only [lookup_foldl_refused]
  cases hl : t.evicted.lookup n with
  | some at_ => exact .inl rfl
  | none =>
    split_ifs with hm
    · rcases mem_foldl_observeOne_snd hm with h | h
      · exact absurd h not_mem_nil
      · exact .inr ⟨rfl, h⟩
    · exact .inl rfl

def WedgeTracker.found (t : WedgeTracker) (tick : Tick) (openAttempts : List OpenAttempt)
    (n d : String) : Option Evidence :=
  (openAttempts.find? fun a =>
    (t.sweep tick).accepts tick.registered tick.now a && a.sourceNode = n && a.intentId = d).map
      fun a => { anchor := tick.now, expiryPg := a.expiryPg tick.now }

theorem entry_fold : (t.fold tick openAttempts).evidence.entry n d =
    ((if n ∈ tick.reapedSinceLast ∨ n ∉ tick.registered then none
      else t.evidence.entry n d).or (t.found tick openAttempts n d)).filter
        (·.inWindow tick.now) := by
  rw [← entry_sweep, WedgeTracker.found]
  unfold WedgeTracker.fold WedgeTracker.observe
  rw [entry_prune, entry_foldl_observeOne]

theorem found_eq_some (h : t.found tick openAttempts n d = some e) :
    ∃ a ∈ openAttempts, (t.sweep tick).accepts tick.registered tick.now a ∧ a.sourceNode = n ∧
      a.intentId = d ∧ e = { anchor := tick.now, expiryPg := a.expiryPg tick.now } := by
  obtain ⟨a, hf, rfl⟩ := Option.map_eq_some_iff.mp h
  have hp := find?_some hf
  simp only [Bool.and_eq_true, decide_eq_true_eq] at hp
  exact ⟨a, mem_of_find?_eq_some hf, hp.1.1, hp.1.2, hp.2, rfl⟩

theorem found_isSome (hm : a ∈ openAttempts)
    (ha : (t.sweep tick).accepts tick.registered tick.now a) :
    ∃ e, t.found tick openAttempts a.sourceNode a.intentId = some e := by
  have hs : ((openAttempts.find? fun b =>
      (t.sweep tick).accepts tick.registered tick.now b && b.sourceNode = a.sourceNode &&
        b.intentId = a.intentId)).isSome := by
    rw [find?_isSome]
    exact ⟨a, hm, by simp [ha]⟩
  obtain ⟨b, hb⟩ := Option.isSome_iff_exists.mp hs
  exact ⟨_, by rw [WedgeTracker.found, hb]; rfl⟩

@[simp] theorem lastSuppression_fold : (t.fold tick openAttempts).lastSuppression =
    t.lastSuppression.filter (·.live tick.now) := rfl

theorem lookup_evicted_fold : (t.fold tick openAttempts).evicted.lookup n = some at_ ↔
    ((t.sweep tick).observe openAttempts tick.registered tick.now).evicted.lookup n = some at_ ∧
      tick.now - at_ ≤ wedgeClusterWindowSecs := by
  unfold WedgeTracker.fold WedgeTracker.prune
  simp [Map.lookup_retain]

end RioBuild.Wedge
