import RioBuild.Lib.Search

namespace RioBuild.Lib.Window

open List

open Search (unseen mem_unseen nodup_unseen)

inductive Reach (step : α → α → Prop) (base : Finset α) (seeds : List α) : α → Prop
  | seed {x : α} (hx : x ∈ seeds) (hbase : x ∉ base) : Reach step base seeds x
  | next {x y : α} (hx : Reach step base seeds x) (hy : step x y) (hbase : y ∉ base) :
    Reach step base seeds y

theorem Reach.mono (h : Reach step base seeds x) (hs : seeds ⊆ seeds')
    (hst : ∀ x y, step x y → step' x y) : Reach step' base seeds' x := by
  induction h with
  | seed hx hbase => exact .seed (hs hx) hbase
  | next _ hy hbase ih => exact .next ih (hst _ _ hy) hbase

def Found (done : List (α × List α)) (x y : α) : Prop := ∃ next, (x, next) ∈ done ∧ y ∈ next

/-- What is pending and what was expanded, with the successors it was found to have, since the
search was started with `base` visited. -/
structure Expanding (base : Finset α) (seeds : List α) (visited : Finset α) (pending : List α)
    (done : List (α × List α)) : Prop where
  nodup : (pending ++ done.map Prod.fst).Nodup
  mem_visited : ∀ x, x ∈ visited ↔ x ∈ base ∨ x ∈ pending ++ done.map Prod.fst
  fresh : ∀ x ∈ pending ++ done.map Prod.fst, x ∉ base
  seeded : ∀ x ∈ seeds, x ∈ visited
  closed : ∀ p ∈ done, ∀ y ∈ p.2, y ∈ visited
  reach : ∀ x ∈ pending ++ done.map Prod.fst, Reach (Found done) base seeds x

namespace Expanding

variable {done : List (α × List α)}

theorem perm (h : Expanding base seeds visited pending done) (hp : pending.Perm pending') :
    Expanding base seeds visited pending' done := by
  have ha := hp.append_right (done.map Prod.fst)
  refine ⟨ha.nodup_iff.mp h.nodup, ?_, ?_, h.seeded, h.closed, ?_⟩
  · intro x
    rw [h.mem_visited, ha.mem_iff]
  · exact fun x hx => h.fresh x (ha.mem_iff.mpr hx)
  · exact fun x hx => h.reach x (ha.mem_iff.mpr hx)

theorem mem_done_iff (h : Expanding base seeds visited [] done)
    (hs : ∀ p ∈ done, ∀ y, y ∈ p.2 ↔ step p.1 y) :
    x ∈ done.map Prod.fst ↔ Reach step base seeds x := by
  have hd : ∀ y, y ∈ visited → y ∉ base → y ∈ done.map Prod.fst :=
    fun y hy hbase => ((h.mem_visited y).mp hy).resolve_left hbase
  constructor
  · intro hx
    refine (h.reach x hx).mono (List.Subset.refl _) ?_
    rintro x y ⟨next, hn, hy⟩
    exact (hs _ hn y).mp hy
  · intro hx
    induction hx with
    | seed hx hbase => exact hd _ (h.seeded _ hx) hbase
    | next _ hy hbase ih =>
      obtain ⟨p, hp, rfl⟩ := mem_map.mp ih
      exact hd _ (h.closed p hp _ ((hs p hp _).mpr hy)) hbase

variable [DecidableEq α]

theorem start (base : Finset α) (seeds : List α) :
    Expanding base seeds (base ∪ seeds.toFinset) (unseen base seeds) [] := by
  refine ⟨?_, ?_, ?_, ?_, by simp, ?_⟩
  · simpa using nodup_unseen
  · intro x
    by_cases hx : x ∈ base <;> simp [hx]
  · simp
  · simp +contextual
  · intro x hx
    rw [map_nil, append_nil, mem_unseen] at hx
    exact .seed hx.1 hx.2

theorem expand (h : Expanding base seeds visited (x :: pending) done) (next : List α) :
    Expanding base seeds (visited ∪ next.toFinset) (pending ++ unseen visited next)
      (done ++ [(x, next)]) := by
  have ha : (pending ++ unseen visited next ++ (done ++ [(x, next)]).map Prod.fst).Perm
      (unseen visited next ++ (x :: pending ++ done.map Prod.fst)) := by
    rw [map_append, map_singleton]
    refine perm_iff_count.mpr fun a => ?_
    simp only [count_append, count_cons]
    simp only [count_nil]
    omega
  have hf : ∀ y ∈ unseen visited next ++ (x :: pending ++ done.map Prod.fst), y ∉ base := by
    intro y hy
    rw [mem_append, mem_unseen] at hy
    rcases hy with hy | hy
    · exact fun hbase => hy.2 ((h.mem_visited y).mpr (.inl hbase))
    · exact h.fresh y hy
  refine ⟨ha.nodup_iff.mpr ?_, ?_, ?_, ?_, ?_, ?_⟩
  · refine nodup_append.mpr ⟨nodup_unseen, h.nodup, ?_⟩
    rintro y hy z hz rfl
    exact (mem_unseen.mp hy).2 ((h.mem_visited y).mpr (.inr hz))
  · intro y
    rw [ha.mem_iff, mem_append, mem_unseen, Finset.mem_union, mem_toFinset, h.mem_visited]
    tauto
  · exact fun y hy => hf y (ha.mem_iff.mp hy)
  · exact fun y hy => Finset.mem_union_left _ (h.seeded y hy)
  · intro p hp y hy
    rcases mem_append.mp hp with hp | hp
    · exact Finset.mem_union_left _ (h.closed p hp y hy)
    · rw [mem_singleton.mp hp] at hy
      exact Finset.mem_union_right _ (mem_toFinset.mpr hy)
  · intro y hy
    have hy := ha.mem_iff.mp hy
    have ho : ∀ z ∈ x :: pending ++ done.map Prod.fst,
        Reach (Found (done ++ [(x, next)])) base seeds z := by
      refine fun z hz => (h.reach z hz).mono (List.Subset.refl _) ?_
      rintro a b ⟨l, hl, hb⟩
      exact ⟨l, mem_append_left _ hl, hb⟩
    rcases mem_append.mp hy with hn | hy'
    · have hx := ho x (mem_append_left _ mem_cons_self)
      refine .next hx ⟨next, mem_append_right _ mem_cons_self, ?_⟩ (hf y hy)
      exact (mem_unseen.mp hn).1
    · exact ho y hy'

end Expanding

end RioBuild.Lib.Window
