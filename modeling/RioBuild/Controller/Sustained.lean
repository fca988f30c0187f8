import RioBuild.Controller.Streaks

namespace RioBuild.Controller

open Lib List StreakOp StreakEntry

variable {p : Pool} {i : String} {key : PoolKey} {obs : Observation} {coverage : DemandCoverage}
  {now : Nat} {s : PoolStreaks} {ops : List StreakOp} {op : StreakOp}

def StreakEntry.kept (own : Bool) (obs : Observation) (coverage : DemandCoverage) (now : Nat)
    (i : String) (e : StreakEntry) : Option StreakEntry :=
  let e := if coverage = .incomplete ∧ own then { e with touched := now } else e
  if secsSince now e.touched < poolStreakOrphanExpirySecs ∧
      ¬(own ∧ obs.evaluated i ∧ i ∉ obs.gated) then some e
  else none

def StreakEntry.next (now : Nat) (prev : Option StreakEntry) : StreakEntry where
  streak := (exhaustedStreakStep (prev.map (·.streak))).1
  firstGated := (prev.map (·.firstGated)).getD now
  touched := now

def StreakEntry.reports (e : StreakEntry) : Bool :=
  noEligibleSourcePersistTicks ≤ e.streak &&
    noEligibleSourcePersistFloorSecs ≤ secsSince e.touched e.firstGated

namespace PoolStreaks

theorem foldl_stepGated {ids : List String} (hi : ids.Nodup)
    (rows : Map (PoolKey × String) StreakEntry) (report : List String) :
    (∀ k j, (ids.foldl (stepGated key now) (rows, report)).1.lookup (k, j) =
      if k = key ∧ j ∈ ids then some (.next now (rows.lookup (k, j))) else rows.lookup (k, j)) ∧
    ∀ j, j ∈ (ids.foldl (stepGated key now) (rows, report)).2 ↔
      j ∈ report ∨ j ∈ ids ∧ (next now (rows.lookup (key, j))).reports := by
  induction ids generalizing rows report with
  | nil => simp
  | cons id ids ih =>
    obtain ⟨hid, hi⟩ := nodup_cons.mp hi
    obtain ⟨hrw, hre⟩ := ih hi
      (stepGated key now (rows, report) id).1 (stepGated key now (rows, report) id).2
    have hl : ∀ k j, (stepGated key now (rows, report) id).1.lookup (k, j) =
        if k = key ∧ j = id then some (.next now (rows.lookup (key, id)))
        else rows.lookup (k, j) := by
      intro k j
      rw [stepGated, Map.lookup_insert_ite]
      simp only [Prod.mk.injEq]
      rfl
    have hm : ∀ j, j ∈ (stepGated key now (rows, report) id).2 ↔
        j ∈ report ∨ j = id ∧ (next now (rows.lookup (key, id))).reports := by
      intro j
      have hs : (stepGated key now (rows, report) id).2 =
          if (next now (rows.lookup (key, id))).reports then report ++ [id]
          else report := rfl
      rw [hs]
      split_ifs with hr
      all_goals simp [hr]
    rw [foldl_cons]
    refine ⟨fun k j => ?_, fun j => ?_⟩
    · rw [hrw, hl]
      by_cases hk : k = key
      · subst hk
        by_cases hj : j = id
        · subst hj
          simp [hid]
        · simp [hj]
      · simp [hk]
    · rw [hre, hm, hl]
      by_cases hj : j = id
      · subst hj
        simp [hid]
      · simp [hj]

def survivors (key : PoolKey) (obs : Observation) (coverage : DemandCoverage) (now : Nat)
    (entries : Map (PoolKey × String) StreakEntry) : Map (PoolKey × String) StreakEntry :=
  let entries := if coverage = .incomplete then
      entries.adjust fun k e => if k.1 = key then { e with touched := now } else e
    else entries
  (entries.retain fun _ e => secsSince now e.touched < poolStreakOrphanExpirySecs).retain
    fun k _ => k.1 ≠ key || !(obs.evaluated k.2 && k.2 ∉ obs.gated)

theorem step_eq : (s.step key obs coverage now).1.entries =
      ((obs.gated.sort (· ≤ ·)).foldl (stepGated key now)
        (survivors key obs coverage now s.entries, [])).1 ∧
    (s.step key obs coverage now).2 =
      ((obs.gated.sort (· ≤ ·)).foldl (stepGated key now)
        (survivors key obs coverage now s.entries, [])).2.mergeSort := by
  unfold step survivors
  by_cases hc : coverage = .incomplete
  · simp [if_pos hc]
  · simp [if_neg hc]

theorem lookup_survivors (entries : Map (PoolKey × String) StreakEntry) :
    (survivors key obs coverage now entries).lookup (k, i) =
      (entries.lookup (k, i)).bind (·.kept (k = key) obs coverage now i) := by
  unfold survivors
  rw [Map.lookup_retain, Map.lookup_retain]
  have hr : Finmap.lookup (k, i) (if coverage = .incomplete then
      entries.adjust fun k e => if k.1 = key then { e with touched := now } else e
      else entries) = (entries.lookup (k, i)).map fun e =>
        if coverage = .incomplete ∧ k = key then { e with touched := now } else e := by
    by_cases hc : coverage = .incomplete
    · simp [hc, Map.lookup_adjust]
    · simp [hc]
  rw [hr]
  cases entries.lookup (k, i) with
  | none => rfl
  | some e =>
    simp only [Option.map_some, Option.bind_some, kept, decide_eq_true_eq]
    generalize (if coverage = .incomplete ∧ k = key then { e with touched := now } else e) = e'
    by_cases hf : secsSince now e'.touched < poolStreakOrphanExpirySecs
    · by_cases hk : k = key
      · simp [hf, Option.filter, imp_iff_not_or]
      · simp [hf, hk]
    · simp [hf]

theorem lookup_step :
    (s.step key obs coverage now).1.entries.lookup (k, i) = if k = key ∧ i ∈ obs.gated then
        some (.next now ((s.entries.lookup (k, i)).bind (·.kept (k = key) obs coverage now i)))
      else (s.entries.lookup (k, i)).bind (·.kept (k = key) obs coverage now i) := by
  rw [step_eq.1, (foldl_stepGated (Finset.sort_nodup _ _) _ _).1, lookup_survivors]
  simp

theorem mem_report : i ∈ (s.step key obs coverage now).2 ↔ i ∈ obs.gated ∧
    (next now ((s.entries.lookup (key, i)).bind (·.kept true obs coverage now i))).reports := by
  rw [step_eq.2, mem_mergeSort, (foldl_stepGated (Finset.sort_nodup _ _) _ _).2, lookup_survivors]
  simp

end PoolStreaks

theorem secsSince_lt (hn : 0 < n) :
    secsSince now earlier < n ↔ now < earlier + n * nanosPerSec := by
  have hp : 0 < nanosPerSec := by decide
  rw [secsSince, Nat.div_lt_iff_lt_mul hp]
  have := Nat.mul_pos hn hp
  omega

theorem le_secsSince : n ≤ secsSince now earlier ↔ n * nanosPerSec ≤ now - earlier :=
  Nat.le_div_iff_mul_le (by decide)

theorem split_at_slash (ha : '/' ∉ a) (hc : '/' ∉ c) (h : a ++ '/' :: b = c ++ '/' :: d) :
    a = c ∧ b = d := by
  induction a generalizing c with
  | nil =>
    cases c with
    | nil => exact ⟨rfl, (cons.inj h).2⟩
    | cons x c => exact absurd ((cons.inj h).1 ▸ mem_cons_self) hc
  | cons x a ih =>
    cases c with
    | nil => exact absurd ((cons.inj h).1 ▸ mem_cons_self) ha
    | cons y c =>
      obtain ⟨rfl, ht⟩ := cons.inj h
      obtain ⟨rfl, rfl⟩ := ih (fun hx => ha (mem_cons_of_mem _ hx))
        (fun hx => hc (mem_cons_of_mem _ hx)) ht
      exact ⟨rfl, rfl⟩

theorem Pool.key_inj (hp : '/' ∉ p.space.toList) (hq : '/' ∉ q.space.toList) :
    p.key = q.key ↔ p = q := by
  refine ⟨fun h => ?_, congrArg _⟩
  have ht := congrArg String.toList (PoolKey.mk.inj h)
  rw [String.toList_append, String.toList_append, String.toList_append, String.toList_append,
    append_assoc, append_assoc] at ht
  obtain ⟨hs, hn⟩ := split_at_slash hp hq ht
  exact mk.injEq .. ▸ ⟨String.toList_inj.mp hs, String.toList_inj.mp hn⟩

namespace StreakOp

def gates (p : Pool) (i : String) : StreakOp → Bool
  | step q obs _ _ => q = p && i ∈ obs.gated
  | death .. | alive .. | demandEpoch .. | resolution .. => false

def recovers (p : Pool) (i : String) : StreakOp → Bool
  | step q obs _ _ => q = p && obs.evaluated i && i ∉ obs.gated
  | death .. | alive .. | demandEpoch .. | resolution .. => false

def track (p : Pool) (i : String) (e : Option StreakEntry) : StreakOp → Option StreakEntry
  | step q obs coverage now =>
    if q = p ∧ i ∈ obs.gated then some (.next now (e.bind (·.kept (q = p) obs coverage now i)))
    else e.bind (·.kept (q = p) obs coverage now i)
  | death .. | alive .. | demandEpoch .. | resolution .. => e

end StreakOp

def gatings (p : Pool) (i : String) (ops : List StreakOp) : List Nat :=
  (ops.filter (·.gates p i)).filterMap time

theorem lookup_apply (hp : '/' ∉ p.space.toList) (ho : '/' ∉ op.pool.space.toList) :
    (op.apply s).entries.lookup (p.key, i) = op.track p i (s.entries.lookup (p.key, i)) := by
  cases op with
  | step q obs coverage now =>
    have hk : p.key = q.key ↔ q = p := (Pool.key_inj hp ho).trans eq_comm
    simp [apply, track, PoolStreaks.lookup_step, hk]
  | death | alive => rfl
  | demandEpoch q intent cycle =>
    rw [apply, track, PoolStreaks.noteDemandEpoch]
    split
    · rfl
    · split
      · split
        · rfl
        · split
          · rfl
          · rfl
      · rfl
  | resolution q intent what now =>
    rw [apply, track, PoolStreaks.noteResolution]
    split
    · rfl
    · rfl

theorem lookup_run (hp : '/' ∉ p.space.toList) (ho : ∀ op ∈ ops, '/' ∉ op.pool.space.toList) :
    (runStreaks ops).entries.lookup (p.key, i) = ops.foldl (track p i) none := by
  have : ∀ s : PoolStreaks, (ops.foldl apply s).entries.lookup (p.key, i) =
      ops.foldl (track p i) (s.entries.lookup (p.key, i)) := by
    induction ops with
    | nil => exact fun s => rfl
    | cons op ops ih =>
      intro s
      obtain ⟨hop, ho⟩ := forall_mem_cons.mp ho
      rw [foldl_cons, ih ho, lookup_apply hp hop, foldl_cons]
  exact this {}

def Streak (p : Pool) (i : String) (ops : List StreakOp) (first : Nat) (later : List Nat) : Prop :=
  ∃ pre op mid, ops = pre ++ op :: mid ∧ op.gates p i ∧ op.time = some first ∧
    (∀ op ∈ mid, op.recovers p i = false) ∧ later = gatings p i mid

theorem StreakEntry.kept_eq_some {e e' : StreakEntry} : e.kept own obs coverage now i = some e' ↔
    e' = (if coverage = .incomplete ∧ own then { e with touched := now } else e) ∧
    now < e'.touched + poolStreakOrphanExpirySecs * nanosPerSec ∧
    ¬(own ∧ obs.evaluated i ∧ i ∉ obs.gated) := by
  unfold kept
  generalize (if coverage = .incomplete ∧ own then { e with touched := now } else e) = x
  rw [Option.ite_none_right_eq_some, Option.some_inj, secsSince_lt (by decide)]
  constructor
  · rintro ⟨⟨hf, ho⟩, rfl⟩
    exact ⟨rfl, hf, ho⟩
  · rintro ⟨rfl, hf, ho⟩
    exact ⟨⟨hf, ho⟩, rfl⟩

theorem StreakEntry.kept_same {e e' : StreakEntry} (h : e.kept own obs coverage now i = some e') :
    e'.streak = e.streak ∧ e'.firstGated = e.firstGated := by
  obtain ⟨rfl, -⟩ := kept_eq_some.mp h
  split
  all_goals exact ⟨rfl, rfl⟩

theorem StreakEntry.toNat_next_streak (prev : StreakEntry) : (next now (some prev)).streak.toNat =
    min (prev.streak.toNat + 1) (2 ^ 32 - 1) :=
  U32.toNat_saturatingAdd prev.streak 1

def StreakOp.refreshes (p : Pool) (i : String) : StreakOp → Bool
  | step q obs coverage _ => q = p && (i ∈ obs.gated || coverage = .incomplete)
  | death .. | alive .. | demandEpoch .. | resolution .. => false

def StreakOp.incomplete : StreakOp → Bool
  | step _ _ coverage _ => coverage = .incomplete
  | death .. | alive .. | demandEpoch .. | resolution .. => false

/-- Less than the expiry apart, or with a part of the demand out of sight. -/
def StreakOp.Follows (a b : StreakOp) : Prop :=
  ∀ u ∈ a.time, ∀ v ∈ b.time, b.incomplete ∨ v < u + poolStreakOrphanExpirySecs * nanosPerSec

theorem StreakOp.track_eq_some (h : op.track p i e = some e') :
    op.gates p i = true ∧ op.time = some e'.firstGated ∧ e'.streak.toNat = 1 ∧
        e'.touched = e'.firstGated ∨
      ∃ e0, e = some e0 ∧ op.recovers p i = false ∧ e'.firstGated = e0.firstGated ∧
        e'.streak.toNat = min (e0.streak.toNat + (gatings p i [op]).length) (2 ^ 32 - 1) ∧
        (op.refreshes p i = true ∧ op.time = some e'.touched ∧ (op.incomplete ∨
            e'.touched < e0.touched + poolStreakOrphanExpirySecs * nanosPerSec) ∨
          op.refreshes p i = false ∧ e'.touched = e0.touched) := by
  have hsame : ∀ n : UInt32, n.toNat = min (n.toNat + 0) (2 ^ 32 - 1) := by
    intro n
    have := n.toNat_lt
    omega
  cases op with
  | step q obs coverage now =>
    rw [track] at h
    by_cases hg : q = p ∧ i ∈ obs.gated
    · rw [if_pos hg, Option.some_inj] at h
      have hgat : (step q obs coverage now).gates p i = true := by simpa [gates] using hg
      cases hke : e.bind (·.kept (q = p) obs coverage now i) with
      | none =>
        rw [hke] at h
        subst h
        exact .inl ⟨hgat, rfl, by rfl, rfl⟩
      | some k =>
        rw [hke] at h
        obtain ⟨e0, he0, hk⟩ := Option.bind_eq_some_iff.mp hke
        obtain ⟨hs, hf⟩ := kept_same hk
        obtain ⟨rfl, hn, -⟩ := kept_eq_some.mp hk
        subst h
        refine .inr ⟨e0, he0, by simp [recovers, hg.2], hf, ?_, .inl ⟨?_, rfl, ?_⟩⟩
        · have hl : (gatings p i [step q obs coverage now]).length = 1 := by
            simp [gatings, hgat, time]
          rw [toNat_next_streak, hs, hl]
        · simp [refreshes, hg]
        · by_cases hc : coverage = .incomplete
          · exact .inl (by simpa [incomplete] using hc)
          · simp only [hc, false_and, if_false] at hn
            exact .inr hn
    · rw [if_neg hg] at h
      obtain ⟨e0, he0, hk⟩ := Option.bind_eq_some_iff.mp h
      obtain ⟨hs, hf⟩ := kept_same hk
      obtain ⟨rfl, -, hr⟩ := kept_eq_some.mp hk
      have hl : gatings p i [step q obs coverage now] = [] := by simp [gatings, gates, hg]
      refine .inr ⟨e0, he0, by simpa [recovers] using hr, hf, ?_, ?_⟩
      · rw [hs, hl]
        exact hsame _
      · by_cases hc : coverage = .incomplete ∧ q = p
        · exact .inl ⟨by simp [refreshes, hc], by simp [hc, time], .inl (by simp [incomplete, hc])⟩
        · refine .inr ⟨?_, by simp [hc]⟩
          simp only [refreshes, Bool.and_eq_false_imp, decide_eq_true_eq]
          intro hq
          simp_all
  | death | alive | demandEpoch | resolution =>
    exact .inr ⟨e', h, rfl, rfl, hsame _, .inr ⟨rfl, rfl⟩⟩

/-- The entry counts the gating steps from `start` on, `mid` being what comes after it. -/
def Counts (p : Pool) (i : String) (ops : List StreakOp) (e : StreakEntry) (start : StreakOp)
    (mid : List StreakOp) : Prop :=
  start :: mid <:+ ops ∧ start.gates p i ∧ start.time = some e.firstGated ∧
    e.streak.toNat = min ((gatings p i mid).length + 1) (2 ^ 32 - 1) ∧
    ∀ op ∈ mid, op.recovers p i = false

theorem gatings_append : gatings p i (a ++ b) = gatings p i a ++ gatings p i b := by
  simp [gatings]

theorem follows_of_entry (h : ops.foldl (track p i) none = some e) :
    ∃ start mid, Counts p i ops e start mid ∧
      ((start :: mid).filter (refreshes p i)).IsChain Follows ∧
      ∀ op ∈ ((start :: mid).filter (refreshes p i)).getLast?, op.time = some e.touched := by
  induction ops using reverseRecOn generalizing e with
  | nil => cases h
  | append_singleton ops op ih =>
    rw [foldl_append, foldl_cons, foldl_nil] at h
    obtain ⟨hg, ht, ho, hto⟩ | ⟨e0, he0, hv, hf, hs, hr⟩ := track_eq_some h
    · refine ⟨op, [], ⟨suffix_append .., hg, ht, ho, by simp⟩, ?_⟩
      cases hr : op.refreshes p i with
      | false | true => simp [hr, hto, ht]
    · obtain ⟨start, mid, ⟨⟨pre, rfl⟩, hg, ht, hn, hm⟩, hc, hl⟩ := ih he0
      refine ⟨start, mid ++ [op], ⟨⟨pre, by simp⟩, hg, hf ▸ ht, ?_, ?_⟩, ?_⟩
      · rw [hs, hn, gatings_append, length_append]
        omega
      · simpa [or_imp, forall_and] using ⟨hm, hv⟩
      rw [← cons_append, filter_append, filter_singleton]
      obtain ⟨hr, hto, hne⟩ | ⟨hr, hto⟩ := hr
      · rw [hr]
        refine ⟨hc.append (isChain_singleton _) ?_, by simp [hto]⟩
        intro x hx y hy u hu v hv
        have := hl x hx
        simp_all
      · rw [hr, hto, cond_false, append_nil]
        exact ⟨hc, hl⟩

theorem streak_of_entry (h : ops.foldl (track p i) none = some e) :
    ∃ later, Streak p i ops e.firstGated later ∧ e.streak.toNat ≤ later.length + 1 := by
  obtain ⟨start, mid, ⟨⟨pre, rfl⟩, hg, ht, hn, hm⟩, -⟩ := follows_of_entry h
  exact ⟨_, ⟨pre, start, mid, rfl, hg, ht, hm, rfl⟩, hn ▸ min_le_left _ _⟩

def lastGating (first : Nat) (later : List Nat) : Nat := later.getLastD first

def Soon (last : Nat) (op : StreakOp) : Prop :=
  ∀ u, op.time = some u → last ≤ u ∧ u < last + poolStreakOrphanExpirySecs * nanosPerSec

theorem StreakEntry.exists_kept (coverage : DemandCoverage) {own : Bool} {e : StreakEntry}
    (hl : last ≤ e.touched)
    (hle : last ≤ now) (hlt : now < last + poolStreakOrphanExpirySecs * nanosPerSec)
    (ho : ¬(own ∧ obs.evaluated i ∧ i ∉ obs.gated)) :
    ∃ e', e.kept own obs coverage now i = some e' ∧ e'.firstGated = e.firstGated ∧
      e'.streak = e.streak ∧ last ≤ e'.touched := by
  refine ⟨_, kept_eq_some.mpr ⟨rfl, ?_, ho⟩, ?_⟩
  · split
    · exact Nat.lt_add_of_pos_right (by decide)
    · omega
  · split
    · exact ⟨rfl, rfl, hle⟩
    · exact ⟨rfl, rfl, hl⟩

theorem StreakOp.exists_track (hop : op.recovers p i = false)
    (hso : Soon last op) (hl : last ≤ e.touched) :
    ∃ e', op.track p i (some e) = some e' ∧ e'.firstGated = e.firstGated ∧
      min 2 (e.streak.toNat + (gatings p i [op]).length) ≤ e'.streak.toNat ∧
      lastGating last (gatings p i [op]) ≤ e'.touched := by
  cases op with
  | step q obs coverage now =>
    obtain ⟨hle, hlt⟩ := hso now rfl
    have ho : ¬(decide (q = p) = true ∧ obs.evaluated i = true ∧ i ∉ obs.gated) := by
      simpa [recovers] using hop
    obtain ⟨k, hk, hf, hs, hto⟩ :=
      exists_kept coverage hl hle hlt ho
    rw [track, Option.bind_some, hk]
    by_cases hg : q = p ∧ i ∈ obs.gated
    · have hga : gatings p i [step q obs coverage now] = [now] := by
        simp [gatings, gates, hg, time]
      rw [if_pos hg, hga]
      refine ⟨_, rfl, hf, ?_, le_rfl⟩
      rw [toNat_next_streak, hs, length_singleton]
      omega
    · have hga : gatings p i [step q obs coverage now] = [] := by
        simp [gatings, gates, hg]
      rw [if_neg hg, hga]
      exact ⟨k, rfl, hf, hs ▸ min_le_right _ _, hto⟩
  | death | alive | demandEpoch | resolution => exact ⟨e, rfl, rfl, min_le_right _ _, hl⟩

theorem entry_of_streak (hf : e1.firstGated ≤ first)
    (ho : 1 ≤ e1.streak.toNat) (ht : first ≤ e1.touched) (hm : ∀ op ∈ mid, op.recovers p i = false)
    (hl : ∀ a op b, mid = a ++ op :: b → Soon (lastGating first (gatings p i a)) op) :
    ∃ e, mid.foldl (track p i) (some e1) = some e ∧ e.firstGated ≤ first ∧
      min 2 ((gatings p i mid).length + 1) ≤ e.streak.toNat ∧
      lastGating first (gatings p i mid) ≤ e.touched := by
  induction mid using reverseRecOn with
  | nil => exact ⟨e1, rfl, hf, by simpa [gatings] using ho, ht⟩
  | append_singleton mid op ih =>
    obtain ⟨e, he, hef, hs, hla⟩ :=
      ih (fun x hx => hm x (mem_append_left _ hx))
        (fun a x b ha => hl a x (b ++ [op]) (by simp [ha]))
    obtain ⟨e', he', hf', hs', hla'⟩ :=
      exists_track (hm op (by simp)) (hl mid op [] rfl) hla
    rw [foldl_append, he, gatings_append]
    refine ⟨e', he', hf' ▸ hef, ?_, ?_⟩
    · rw [length_append]
      omega
    · have : lastGating first (gatings p i mid ++ gatings p i [op]) =
          lastGating (lastGating first (gatings p i mid)) (gatings p i [op]) := by
        cases h : gatings p i [op] using reverseRecOn with
        | nil | append_singleton l x => simp [lastGating]
      rwa [this]

theorem mem_gatings (hg : g ∈ gatings p i ops) : g ∈ ops.filterMap time := by
  obtain ⟨op, ho, ht⟩ := mem_filterMap.mp hg
  exact mem_filterMap.mpr ⟨op, mem_of_mem_filter ho, ht⟩

theorem le_of_times (ht : ((a ++ op :: b).filterMap time).Pairwise (· ≤ ·))
    (hu : op.time = some u) :
    (g ∈ a.filterMap time → g ≤ u) ∧ (g ∈ (op :: b).filterMap time → u ≤ g) := by
  rw [filterMap_append, filterMap_cons_some hu, pairwise_append, pairwise_cons] at ht
  obtain ⟨-, ⟨ha, -⟩, hb⟩ := ht
  rw [filterMap_cons_some hu, mem_cons]
  exact ⟨fun hg => hb g hg u mem_cons_self, fun hg => hg.elim ge_of_eq (ha g)⟩

theorem exists_entry_of_gates {start : StreakOp} (hg : start.gates p i)
    (ht : start.time = some first) (e : Option StreakEntry) :
    ∃ e1, start.track p i e = some e1 ∧ 1 ≤ e1.streak.toNat ∧ e1.touched = first := by
  cases start with
  | step q obs coverage now =>
    obtain ⟨rfl, hgat⟩ : q = p ∧ i ∈ obs.gated := by simpa [gates] using hg
    obtain rfl : now = first := Option.some_inj.mp ht
    refine ⟨_, if_pos ⟨rfl, hgat⟩, ?_, rfl⟩
    rw [StreakEntry.next, exhaustedStreakStep, U32.toNat_saturatingAdd]
    have : (1 : UInt32).toNat = 1 := rfl
    omega
  | death | alive | demandEpoch | resolution => cases hg

theorem lastGating_mem (first : Nat) (later : List Nat) :
    lastGating first later ∈ (first :: later).getLast? := by
  rw [lastGating, getLast?_cons, getLastD_eq_getLast?]
  rfl

theorem soon_of_gaps (ht : ((pre ++ start :: (a ++ op :: b)).filterMap time).Pairwise (· ≤ ·))
    (hs : start.time = some first) (hne : gatings p i (op :: b) ≠ [])
    (hg : (first :: gatings p i (a ++ op :: b)).IsChain fun a b =>
      b < a + poolStreakOrphanExpirySecs * nanosPerSec) :
    Soon (lastGating first (gatings p i a)) op := by
  intro u hu
  rw [← cons_append, ← append_assoc] at ht
  obtain ⟨n, rest, hn⟩ := exists_cons_of_ne_nil hne
  constructor
  · refine (le_of_times ht hu).1 ?_
    rw [filterMap_append, filterMap_cons_some hs]
    refine mem_append_right _ ?_
    have hm := mem_of_getLast? (lastGating_mem first (gatings p i a))
    exact (mem_cons.mp hm).elim (fun h => mem_cons.mpr (.inl h))
      fun h => mem_cons_of_mem _ (mem_gatings h)
  · rw [gatings_append, hn, ← cons_append, isChain_append] at hg
    have hga := hg.2.2 _ (lastGating_mem first (gatings p i a)) n rfl
    have hle : u ≤ n := by
      refine (le_of_times ht hu).2 (mem_gatings (p := p) (i := i) ?_)
      rw [hn]
      exact mem_cons_self
    exact hle.trans_lt hga

theorem streak_of_reports
    (h : (next t ((before.foldl (track p i) none).bind (·.kept true obs coverage t i))).reports) :
    ∃ first later, Streak p i before first later ∧ later ≠ [] ∧
      first + noEligibleSourcePersistFloorSecs * nanosPerSec ≤ t := by
  obtain ⟨hc, hf⟩ := Bool.and_eq_true_iff.mp h
  rw [decide_eq_true_eq] at hc hf
  cases hke : (before.foldl (track p i) none).bind (·.kept true obs coverage t i) with
  | none =>
    rw [hke] at hc
    have ho : (next t none).streak = 1 := rfl
    rw [ho] at hc
    exact absurd hc (by decide)
  | some k =>
    obtain ⟨e, he, hk⟩ := Option.bind_eq_some_iff.mp hke
    obtain ⟨hs, hfs⟩ := kept_same hk
    obtain ⟨later, hr, hl⟩ := streak_of_entry he
    rw [hke] at hc hf
    refine ⟨e.firstGated, later, hr, ?_, ?_⟩
    · rintro rfl
      rw [UInt32.le_iff_toNat_le, toNat_next_streak, hs] at hc
      have ht : noEligibleSourcePersistTicks.toNat = 3 := rfl
      rw [length_nil] at hl
      omega
    · have hf := le_secsSince.mp hf
      change _ ≤ t - k.firstGated at hf
      have : 0 < noEligibleSourcePersistFloorSecs * nanosPerSec := by decide
      omega

theorem firstGated_le (hts : ((pre ++ start :: mid).filterMap time).Pairwise (· ≤ ·))
    (ht : start.time = some first) (he : start.track p i (pre.foldl (track p i) none) = some e) :
    e.firstGated ≤ first := by
  have hf : (pre ++ [start]).foldl (track p i) none = some e := by
    rw [foldl_append, foldl_cons, foldl_nil, he]
  obtain ⟨-, ⟨a, op, b, ha, -, ho, -⟩, -⟩ := streak_of_entry hf
  have hm : e.firstGated ∈ pre.filterMap time ∨ e.firstGated = first := by
    have : e.firstGated ∈ (pre ++ [start]).filterMap time :=
      mem_filterMap.mpr ⟨op, ha ▸ by simp, ho⟩
    simpa [ht] using this
  rcases hm with hm | heq
  · exact (le_of_times hts ht).1 hm
  · exact heq.le

theorem soon_of_step
    (hts : ((pre ++ start :: (mid ++ [.step p obs coverage t])).filterMap time).Pairwise (· ≤ ·))
    (ht : start.time = some first) (hg : i ∈ obs.gated)
    (hgap : (first :: gatings p i mid ++ [t]).IsChain fun a b =>
      b < a + poolStreakOrphanExpirySecs * nanosPerSec)
    (ha : mid ++ [.step p obs coverage t] = a ++ op :: b) :
    Soon (lastGating first (gatings p i a)) op := by
  have hn : gatings p i [.step p obs coverage t] = [t] := by
    simp [gatings, gates, hg, time]
  have hl : step p obs coverage t ∈ op :: b := by
    have : (op :: b).getLast? = some (.step p obs coverage t) := by
      rw [← getLast?_append_of_ne_nil a (cons_ne_nil op b), ← ha, getLast?_concat]
    exact mem_of_getLast? this
  refine soon_of_gaps (ha ▸ hts) ht ?_ ?_
  · refine ne_nil_of_mem (mem_filterMap.mpr ⟨.step p obs coverage t, ?_, rfl⟩)
    exact mem_filter.mpr ⟨hl, by simp [gates, hg]⟩
  · rw [← ha, gatings_append, hn]
    exact hgap

theorem persistTicks_le (hn : min 2 (len + 1) ≤ n) (hl : 0 < len) :
    noEligibleSourcePersistTicks.toNat ≤ min (n + 1) (2 ^ 32 - 1) := by
  change 3 ≤ _
  omega

theorem reports_of_streak
    (hts : ((before ++ [step p obs coverage t]).filterMap
      time).Pairwise (· ≤ ·)) (hg : i ∈ obs.gated)
    (hs : Streak p i before first later) (hla : later ≠ [])
    (hfl : first + noEligibleSourcePersistFloorSecs * nanosPerSec ≤ t)
    (hgap : (first :: later ++ [t]).IsChain
      fun a b => b < a + poolStreakOrphanExpirySecs * nanosPerSec) :
    (next t ((before.foldl (track p i) none).bind (·.kept true obs coverage t i))).reports := by
  obtain ⟨pre, start, mid, rfl, hgat, ht, hm, rfl⟩ := hs
  rw [append_assoc] at hts
  obtain ⟨e1, he1, ho, hto⟩ :=
    exists_entry_of_gates hgat ht (pre.foldl (track p i) none)
  have hf : e1.firstGated ≤ first := firstGated_le hts ht he1
  obtain ⟨e, he, hef, hc, hl⟩ :=
    entry_of_streak hf ho hto.ge hm fun a op b ha =>
      soon_of_step hts ht hg hgap (b := b ++ [.step p obs coverage t]) (by simp [ha])
  have hfo : (pre ++ start :: mid).foldl (track p i) none = some e := by
    rw [foldl_append, foldl_cons, he1, he]
  obtain ⟨hle, hlt⟩ := soon_of_step hts ht hg hgap rfl t rfl
  have how : ¬(true ∧ obs.evaluated i ∧ i ∉ obs.gated) := by simp [hg]
  obtain ⟨k, hk, hkf, hks, -⟩ := exists_kept coverage hl hle hlt how
  rw [hfo, Option.bind_some, hk, reports, Bool.and_eq_true_iff, decide_eq_true_eq,
    decide_eq_true_eq, UInt32.le_iff_toNat_le, toNat_next_streak, le_secsSince]
  have hlen := length_pos_iff.mpr hla
  constructor
  · rw [hks]
    exact persistTicks_le hc hlen
  · exact (Nat.le_sub_of_add_le' hfl).trans (Nat.sub_le_sub_left (hkf ▸ hef) t)

theorem reports_sustained {before after : List StreakOp} {t : Nat}
    (hslash : ∀ op ∈ ops, '/' ∉ op.pool.space.toList)
    (htimes : (ops.filterMap time).Pairwise (· ≤ ·))
    (hops : ops = before ++ .step p obs coverage t :: after) :
    (i ∈ ((runStreaks before).step p.key obs coverage t).2 →
      i ∈ obs.gated ∧ ∃ first later, Streak p i before first later ∧ later ≠ [] ∧
        first + noEligibleSourcePersistFloorSecs * nanosPerSec ≤ t) ∧
    ∀ first later, i ∈ obs.gated → Streak p i before first later → later ≠ [] →
      first + noEligibleSourcePersistFloorSecs * nanosPerSec ≤ t → (first :: later ++ [t]).IsChain
        (fun a b => b < a + poolStreakOrphanExpirySecs * nanosPerSec) →
      i ∈ ((runStreaks before).step p.key obs coverage t).2 := by
  subst hops
  have hp := hslash (.step p obs coverage t) (by simp)
  have hl : (runStreaks before).entries.lookup (p.key, i) = before.foldl (track p i) none :=
    lookup_run hp fun op ho => hslash op (mem_append_left _ ho)
  have htimes' : ((before ++ [step p obs coverage t]).filterMap time).Pairwise (· ≤ ·) := by
    refine htimes.sublist (List.Sublist.filterMap _ ?_)
    simp
  simp only [PoolStreaks.mem_report, hl]
  constructor
  · rintro ⟨hg, hr⟩
    exact ⟨hg, streak_of_reports hr⟩
  · intro first later hg hs hla hf hgap
    exact ⟨hg, reports_of_streak htimes' hg hs hla hf hgap⟩

def onePool : Pool := ⟨"ns", "a"⟩

def xGated : Observation := ⟨{"x"}, ∅⟩

def gatedAt (secs : Nat) : StreakOp := .step onePool xGated .complete (secs * nanosPerSec)

theorem reports_sustained_thirdStep :
    "x" ∈ ((runStreaks [gatedAt 0, gatedAt 10]).step onePool.key xGated .complete
      (20 * nanosPerSec)).2 := by
  have ho : [gatedAt 0, gatedAt 10, gatedAt 20] = [gatedAt 0, gatedAt 10] ++
      .step onePool xGated .complete (20 * nanosPerSec) :: [] := rfl
  refine (reports_sustained ?_ ?_ ho).2 0 [10 * nanosPerSec] (by decide) ?_ (by simp)
    (by decide) (by decide)
  · simp [gatedAt, pool, onePool]
  · simp [gatedAt, time, nanosPerSec]
  · exact ⟨[], gatedAt 0, [gatedAt 10], rfl, by decide, by simp [gatedAt, time], by decide,
      by decide⟩

/-- From the first gating step that a reported streak counts to the report, each step that gates
the intent on a complete view comes less than the expiry after the refreshing step before it. -/
theorem reports_fresh (before : List StreakOp) (p : Pool) (i : String) (obs : Observation)
    (coverage : DemandCoverage) (t : Nat)
    (hslash : ∀ op ∈ before ++ [step p obs coverage t], '/' ∉ op.pool.space.toList)
    (hi : i ∈ ((runStreaks before).step p.key obs coverage t).2) :
    let ops := before ++ [step p obs coverage t]
    ∃ e ∈ (runStreaks ops).entries.lookup (p.key, i), ∃ start mid,
      Counts p i ops e start mid ∧ ((start :: mid).filter (refreshes p i)).IsChain Follows := by
  have hg := (PoolStreaks.mem_report.mp hi).1
  have he : ∃ e, (before ++ [step p obs coverage t]).foldl (track p i) none = some e := by
    simp [track, hg]
  obtain ⟨e, he⟩ := he
  obtain ⟨start, mid, ho, hc, -⟩ := follows_of_entry he
  have hp : '/' ∉ p.space.toList := hslash (.step p obs coverage t) (by simp)
  exact ⟨e, (lookup_run hp hslash).trans he, start, mid, ho, hc⟩

theorem reports_fresh_thirdStep : let ops := [gatedAt 0, gatedAt 10] ++ [gatedAt 20]
    ∃ e ∈ (runStreaks ops).entries.lookup (onePool.key, "x"), ∃ start mid,
      Counts onePool "x" ops e start mid ∧
        ((start :: mid).filter (refreshes onePool "x")).IsChain Follows :=
  reports_fresh [gatedAt 0, gatedAt 10] onePool "x" xGated .complete (20 * nanosPerSec)
    (by simp [gatedAt, pool, onePool]) (by decide +kernel)

/-- Hours after two gating steps one more, with a part of the demand out of sight, is enough. -/
theorem stale_evidence_reports :
    "x" ∈ ((runStreaks [gatedAt 0, gatedAt 10]).step onePool.key xGated .incomplete
        (7200 * nanosPerSec)).2 ∧
      ¬7200 * nanosPerSec < 10 * nanosPerSec + poolStreakOrphanExpirySecs * nanosPerSec := by
  decide +kernel

end RioBuild.Controller
