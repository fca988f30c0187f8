import Mathlib
import RioBuild.Lib.Maps

namespace RioBuild.Lib.Kahn

open List

variable {α : Type*} [DecidableEq α]

/-- One dependency of `p` is done.  `p` is ready with the last; there is none left to count after
it. -/
def release (state : Map α Nat × List α) (p : α) : Option (Map α Nat × List α) :=
  match state.1.lookup p with
  | none => some state
  | some 0 => none
  | some (d + 1) => some (state.1.insert p d, if d = 0 then state.2 ++ [p] else state.2)

def run (waiting : α → List α) : Nat → Map α Nat → List α → List α → Option (List α)
  | _, _, [], order => some order
  | 0, _, _ :: _, _ => none
  | fuel + 1, degree, x :: queue, order =>
    ((waiting x).foldlM release (degree, queue)).bind fun state =>
      run waiting fuel state.1 state.2 (order ++ [x])

def sort (waiting : α → List α) (degree : α → Nat) (seeds : List α) : Option (List α) :=
  let inDegree : Map α Nat := seeds.foldl (fun m x => m.insert x (degree x)) ∅
  run waiting seeds.length inDegree (seeds.filter (inDegree.lookup · = some 0)) []

section Release

theorem release_foldlM (degree : Map α Nat) (queue : List α) {ps : List α} (hps : ps.Nodup)
    (hpo : ∀ p ∈ ps, degree.lookup p ≠ some 0) : ∃ degree', ps.foldlM release (degree, queue) =
        some (degree', queue ++ ps.filter (degree.lookup · = some 1)) ∧
      ∀ p, degree'.lookup p =
        if p ∈ ps then (degree.lookup p).map (· - 1) else degree.lookup p := by
  induction ps generalizing degree queue with
  | nil => exact ⟨degree, by simp, by simp⟩
  | cons p ps ih =>
    obtain ⟨hp, hps⟩ := nodup_cons.mp hps
    obtain ⟨hpo, hre⟩ := forall_mem_cons.mp hpo
    cases hd : degree.lookup p with
    | none =>
      obtain ⟨degree', hr, hl⟩ := ih degree queue hps hre
      refine ⟨degree', ?_, fun q => ?_⟩
      · simp [release, hd, hr]
      · rw [hl]
        by_cases hq : q = p
        · subst hq
          simp [hd]
        · simp [hq]
    | some d =>
      obtain ⟨d, rfl⟩ : ∃ d', d = d' + 1 :=
        Nat.exists_eq_succ_of_ne_zero fun h0 => hpo (by rw [hd, h0])
      have ho : ∀ q ∈ ps, (degree.insert p d).lookup q = degree.lookup q := by
        intro q hq
        have hne : q ≠ p := fun heq => hp (heq ▸ hq)
        rw [Map.lookup_insert_ite, if_neg hne]
      obtain ⟨degree', hr, hl⟩ := ih (degree.insert p d) (if d = 0 then queue ++ [p] else queue) hps
        fun q hq => by rw [ho q hq]; exact hre q hq
      have hf : ps.filter ((degree.insert p d).lookup · = some 1) =
          ps.filter (degree.lookup · = some 1) :=
        filter_congr fun q hq => by rw [ho q hq]
      refine ⟨degree', ?_, fun q => ?_⟩
      · rw [foldlM_cons, release, hd]
        simp only [Option.bind_eq_bind, Option.bind_some]
        rw [hr, hf]
        by_cases h0 : d = 0
        all_goals simp [h0, hd]
      · rw [hl]
        by_cases hq : q = p
        · subst hq
          simp [hp, hd]
        · simp [hq]

end Release

section Order

variable {dep : α → Finset α} {waiting : α → List α} {scope : Finset α} {degree : Map α Nat}
  {queue order : List α} {fuel : Nat}

def left (dep : α → Finset α) (scope : Finset α) (order : List α) (p : α) : Finset α :=
  (dep p ∩ scope) \ order.toFinset

theorem left_concat : left dep scope (order ++ [x]) p = (left dep scope order p).erase x := by
  ext y
  simp only [left, toFinset_append, toFinset_cons, Finset.mem_sdiff, Finset.mem_union,
    Finset.mem_insert, Finset.mem_erase]
  tauto

theorem mem_left (hx : x ∈ scope) (hn : x ∉ order) : x ∈ left dep scope order p ↔ x ∈ dep p := by
  simp [left, hx, hn]

structure Sorting (dep : α → Finset α) (scope : Finset α) (degree : Map α Nat)
    (queue order : List α) : Prop where
  nodup : (order ++ queue).Nodup
  subset : ∀ x ∈ order ++ queue, x ∈ scope
  degree_eq : ∀ p, degree.lookup p = if p ∈ scope then some (left dep scope order p).card else none
  ready : ∀ p ∈ scope, p ∈ order ++ queue ↔ left dep scope order p = ∅
  sorted : order.Pairwise fun a b => b ∉ dep a

theorem Sorting.step (h : Sorting dep scope degree (x :: queue) order)
    (hnd : (waiting x).Nodup) (hm : ∀ p, p ∈ waiting x ↔ x ∈ dep p) :
    ∃ degree' queue', (waiting x).foldlM release (degree, queue) = some (degree', queue') ∧
      Sorting dep scope degree' queue' (order ++ [x]) := by
  have hx : x ∈ scope := h.subset x (by simp)
  have hn : x ∉ order := fun hx => disjoint_of_nodup_append h.nodup hx mem_cons_self
  have hw : ∀ p ∈ waiting x, x ∈ left dep scope order p := fun p hp =>
    (mem_left hx hn).mpr ((hm p).mp hp)
  obtain ⟨degree', hr, hd⟩ := release_foldlM degree queue hnd <| by
    intro p hp
    rw [h.degree_eq]
    split
    · exact fun h0 => Finset.card_ne_zero_of_mem (hw p hp) (Option.some.inj h0)
    · nofun
  -- the newly ready wait for `x` only
  have hla : ∀ p, p ∈ (waiting x).filter (degree.lookup · = some 1) ↔
      p ∈ scope ∧ left dep scope order p = {x} := by
    intro p
    rw [mem_filter, decide_eq_true_eq, h.degree_eq]
    constructor
    · rintro ⟨hp, ho⟩
      split at ho
      · rename_i hs
        obtain ⟨y, hy⟩ := Finset.card_eq_one.mp (Option.some.inj ho)
        have hxy := hw p hp
        rw [hy, Finset.mem_singleton] at hxy
        exact ⟨hs, hxy ▸ hy⟩
      · cases ho
    · rintro ⟨hs, hl⟩
      rw [if_pos hs, hl, hm, ← mem_left hx hn, hl]
      exact ⟨mem_singleton_self x, rfl⟩
  have hme : ∀ p, p ∈ order ++ [x] ++ (queue ++ (waiting x).filter (degree.lookup · = some 1)) ↔
      p ∈ order ++ x :: queue ∨ p ∈ scope ∧ left dep scope order p = {x} := by
    intro p
    rw [← hla]
    simp only [mem_append, mem_cons]
    tauto
  refine ⟨degree', _, hr, ?_, fun p hp => ?_, fun p => ?_, fun p hp => ?_, ?_⟩
  · have hpe : order ++ [x] ++ (queue ++ (waiting x).filter (degree.lookup · = some 1)) =
        (order ++ x :: queue) ++ (waiting x).filter (degree.lookup · = some 1) := by simp
    rw [hpe]
    refine nodup_append.mpr ⟨h.nodup, hnd.filter _, ?_⟩
    rintro a ha b hb rfl
    obtain ⟨hs, hl⟩ := (hla a).mp hb
    rw [(h.ready a hs).mp ha] at hl
    exact Finset.singleton_ne_empty x hl.symm
  · rcases (hme p).mp hp with hp | hp
    · exact h.subset p hp
    · exact hp.1
  · rw [hd, h.degree_eq, left_concat]
    by_cases hs : p ∈ scope
    · by_cases hp : p ∈ waiting x
      · simp [hp, Finset.card_erase_of_mem (hw p hp)]
      · have hou : x ∉ left dep scope order p := by rwa [mem_left hx hn, ← hm]
        simp [hp, Finset.erase_eq_of_notMem hou]
    · simp [hs]
  · rw [hme, h.ready p hp, left_concat]
    constructor
    · rintro (hno | ⟨-, ho⟩)
      · rw [hno, Finset.erase_empty]
      · rw [ho, Finset.erase_singleton]
    · intro he
      rcases Finset.erase_eq_empty_iff _ _ |>.mp he with hno | ho
      · exact .inl hno
      · exact .inr ⟨hp, ho⟩
  · refine pairwise_append.mpr ⟨h.sorted, pairwise_singleton _ _, fun a ha b hb hab => ?_⟩
    rw [mem_singleton] at hb
    subst hb
    have hrd := (h.ready a (h.subset a (mem_append_left _ ha))).mp (mem_append_left _ ha)
    have hb' := (mem_left hx hn).mpr hab
    rw [hrd] at hb'
    exact Finset.notMem_empty b hb'

theorem Sorting.length_le (h : Sorting dep scope degree queue order) :
    order.length + queue.length ≤ scope.card := by
  rw [← length_append, ← toFinset_card_of_nodup h.nodup]
  exact Finset.card_le_card fun x hx => h.subset x (mem_toFinset.mp hx)

omit [DecidableEq α] in
theorem exists_minimal (ha : ∀ v, ¬Relation.TransGen r v v) {s : Finset α} (hs : s.Nonempty) :
    ∃ m ∈ s, ∀ c ∈ s, ¬r m c := by
  let below (a b : s) : Prop := Relation.TransGen r b.1 a.1
  have : Std.Irrefl below := ⟨fun a => ha a.1⟩
  obtain ⟨x, hx⟩ := hs
  obtain ⟨m, -, hm⟩ := (Finite.wellFounded_of_trans_of_irrefl below).has_min Set.univ
    ⟨⟨x, hx⟩, trivial⟩
  exact ⟨m.1, m.2, fun c hc hmc => hm ⟨c, hc⟩ trivial (.single hmc)⟩

theorem Sorting.complete (h : Sorting dep scope degree [] order)
    (ha : ∀ v, ¬Relation.TransGen (fun p c => c ∈ dep p) v v) : x ∈ order ↔ x ∈ scope := by
  refine ⟨fun hx => h.subset x (mem_append_left _ hx), fun hx => ?_⟩
  by_contra hn
  obtain ⟨m, hm, hmi⟩ := exists_minimal ha (s := scope \ order.toFinset) ⟨x, by simp [hx, hn]⟩
  obtain ⟨hs, ho⟩ := Finset.mem_sdiff.mp hm
  have hl : left dep scope order m = ∅ := by
    refine Finset.eq_empty_of_forall_notMem fun c hc => ?_
    rw [left, Finset.mem_sdiff, Finset.mem_inter] at hc
    exact hmi c (Finset.mem_sdiff.mpr ⟨hc.1.2, hc.2⟩) hc.1.1
  have hm' := (h.ready m hs).mpr hl
  rw [append_nil] at hm'
  exact ho (mem_toFinset.mpr hm')

theorem Sorting.run (h : Sorting dep scope degree queue order)
    (hn : ∀ x, (waiting x).Nodup) (hm : ∀ x p, p ∈ waiting x ↔ x ∈ dep p)
    (ha : ∀ v, ¬Relation.TransGen (fun p c => c ∈ dep p) v v)
    (hf : scope.card ≤ fuel + order.length) :
    ∃ result, Kahn.run waiting fuel degree queue order = some result ∧ result.Nodup ∧
      (∀ x, x ∈ result ↔ x ∈ scope) ∧ result.Pairwise fun a b => b ∉ dep a := by
  induction fuel generalizing degree queue order with
  | zero =>
    have hl := h.length_le
    obtain rfl : queue = [] := length_eq_zero_iff.mp (by omega)
    exact ⟨order, rfl, (nodup_append.mp h.nodup).1, fun x => h.complete ha, h.sorted⟩
  | succ fuel ih =>
    cases queue with
    | nil =>
      exact ⟨order, rfl, (nodup_append.mp h.nodup).1, fun x => h.complete ha, h.sorted⟩
    | cons x queue =>
      obtain ⟨degree', queue', hr, hs⟩ := h.step (hn x) (hm x)
      rw [run, hr]
      refine ih hs ?_
      rw [length_append, length_singleton]
      omega

theorem lookup_degree {degree : α → Nat} {seeds : List α} :
    (seeds.foldl (fun m x => m.insert x (degree x)) (∅ : Map α Nat)).lookup p =
      if p ∈ seeds then some (degree p) else none := by
  induction seeds using reverseRecOn with
  | nil => rfl
  | append_singleton seeds x ih =>
    rw [foldl_append, foldl_cons, foldl_nil, Map.lookup_insert_ite, ih]
    by_cases hp : p = x
    all_goals simp [hp]

theorem sort_eq (dep : α → Finset α) (waiting : α → List α) {degree : α → Nat}
    (hs : seeds.Nodup) (hd : ∀ p, degree p = (dep p ∩ seeds.toFinset).card)
    (hn : ∀ x, (waiting x).Nodup) (hm : ∀ x p, p ∈ waiting x ↔ x ∈ dep p)
    (ha : ∀ v, ¬Relation.TransGen (fun p c => c ∈ dep p) v v) :
    ∃ result, sort waiting degree seeds = some result ∧ result.Nodup ∧
      (∀ x, x ∈ result ↔ x ∈ seeds) ∧ result.Pairwise fun a b => b ∉ dep a := by
  have hl : ∀ p, left dep seeds.toFinset [] p = dep p ∩ seeds.toFinset := fun p =>
    Finset.sdiff_empty
  have hst : Sorting dep seeds.toFinset (seeds.foldl (fun m x => m.insert x (degree x)) ∅)
      (seeds.filter fun x => (seeds.foldl (fun m x => m.insert x (degree x))
        (∅ : Map α Nat)).lookup x = some 0) [] := by
    refine ⟨hs.filter _, fun x hx => ?_, fun p => ?_, fun p hp => ?_, .nil⟩
    · exact mem_toFinset.mpr (mem_of_mem_filter hx)
    · rw [lookup_degree, hl, hd]
      simp
    · rw [mem_toFinset] at hp
      rw [nil_append, mem_filter, decide_eq_true_eq, lookup_degree, if_pos hp, hl,
        hd, Option.some.injEq, Finset.card_eq_zero]
      exact and_iff_right hp
  have hf : seeds.toFinset.card ≤ seeds.length + ([] : List α).length := by
    rw [toFinset_card_of_nodup hs]
    exact Nat.le_add_right _ _
  obtain ⟨result, hru, hr⟩ := hst.run hn hm ha hf
  simp only [mem_toFinset] at hr
  exact ⟨result, hru, hr⟩

end Order

end RioBuild.Lib.Kahn
