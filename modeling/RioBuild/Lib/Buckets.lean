import Mathlib
import RioBuild.Lib.Maps

namespace RioBuild.Lib

open List

variable {α β : Type*}

def positions (p : α → Bool) (xs : List α) : List Nat :=
  (List.range xs.length).filter fun i => xs[i]?.any p

theorem mem_positions : i ∈ positions p xs ↔ ∃ x, xs[i]? = some x ∧ p x := by
  rw [positions, mem_filter, mem_range]
  constructor
  · rintro ⟨hlt, hp⟩
    rw [getElem?_eq_getElem hlt] at hp
    exact ⟨xs[i], getElem?_eq_getElem hlt, hp⟩
  · rintro ⟨x, hx, hp⟩
    exact ⟨(List.getElem?_eq_some_iff.mp hx).1, by rw [hx]; exact hp⟩

theorem sorted_positions (p : α → Bool) (xs : List α) : (positions p xs).Pairwise (· < ·) :=
  pairwise_lt_range.filter _

theorem positions_append_singleton :
    positions p (xs ++ [x]) = positions p xs ++ if p x then [xs.length] else [] := by
  have hin : (range xs.length).filter (fun i => (xs ++ [x])[i]?.any p) = positions p xs := by
    refine filter_congr fun i hi => ?_
    rw [getElem?_append_left (mem_range.mp hi)]
  rw [positions, length_append, length_singleton, range_succ, filter_append, hin]
  by_cases hp : p x
  all_goals simp [hp]

theorem filterMap_positions : (positions p xs).filterMap (xs[·]?) = xs.filter p := by
  induction xs using reverseRecOn with
  | nil => rfl
  | append_singleton xs x ih =>
    have hin : (positions p xs).filterMap ((xs ++ [x])[·]?) =
        (positions p xs).filterMap (xs[·]?) := by
      refine filterMap_congr fun i hi => ?_
      obtain ⟨y, hy, -⟩ := mem_positions.mp hi
      rw [getElem?_append_left (List.getElem?_eq_some_iff.mp hy).1]
    rw [positions_append_singleton, filterMap_append, hin, ih]
    by_cases hp : p x
    all_goals simp [hp]

/-- `enumerate`, with `entry(key).or_default().push(idx)` for the elements that have a key. -/
def buckets [DecidableEq β] (key : α → Option β) (xs : List α) : Map β (List Nat) :=
  xs.zipIdx.foldl (fun m x =>
    match key x.1 with
    | some k => m.insert k ((m.lookup k).getD [] ++ [x.2])
    | none => m) ∅

theorem getD_lookup_buckets [DecidableEq β] (key : α → Option β) (xs : List α) (b : β) :
    ((buckets key xs).lookup b).getD [] = positions (key · = some b) xs := by
  induction xs using reverseRecOn with
  | nil => rfl
  | append_singleton xs x ih =>
    rw [positions_append_singleton, ← ih, buckets, zipIdx_append, foldl_append]
    change ((match key x with
      | some k => (buckets key xs).insert k _
      | none => buckets key xs).lookup b).getD [] = _
    cases hk : key x with
    | none => simp
    | some k =>
      by_cases hb : b = k
      · subst hb
        simp [buckets]
      · simp [hb, Ne.symm hb]

theorem eq_positions (hs : l.Pairwise (· ≤ ·)) (hn : l.Nodup)
    (hm : ∀ i, i ∈ l ↔ ∃ x, xs[i]? = some x ∧ p x) : l = positions p xs := by
  have hlt : l.Pairwise (· < ·) :=
    (hs.and hn).imp fun h => lt_of_le_of_ne h.1 h.2
  exact hlt.eq_of_mem_iff (sorted_positions p xs) fun i => (hm i).trans mem_positions.symm

theorem merge_positions (hd : ∀ x ∈ xs, ¬(p x ∧ q x)) :
    List.merge (positions p xs) (positions q xs) (· ≤ ·) = positions (fun x => p x || q x) xs := by
  have hpe : (merge (positions p xs) (positions q xs) (· ≤ ·)).Perm
      (positions p xs ++ positions q xs) := merge_perm_append _
  refine eq_positions (((sorted_positions p xs).imp le_of_lt).merge
    ((sorted_positions q xs).imp le_of_lt)) (hpe.nodup_iff.mpr ?_) fun i => ?_
  · refine nodup_append.mpr ⟨(sorted_positions p xs).imp ne_of_lt,
      (sorted_positions q xs).imp ne_of_lt, ?_⟩
    rintro i hi j hj rfl
    obtain ⟨x, hx, hp⟩ := mem_positions.mp hi
    obtain ⟨y, hy, hq⟩ := mem_positions.mp hj
    obtain rfl : x = y := Option.some.inj (hx.symm.trans hy)
    exact hd x (mem_of_getElem? hx) ⟨hp, hq⟩
  · rw [hpe.mem_iff, mem_append, mem_positions, mem_positions, ← exists_or]
    simp [and_or_left]

theorem flatten_filterMap_lookup [DecidableEq β] (m : Map β (List γ)) (ks : List β) :
    (ks.filterMap m.lookup).flatten = ks.flatMap fun k => (m.lookup k).getD [] := by
  induction ks with
  | nil => rfl
  | cons k ks ih =>
    rw [filterMap_cons, flatMap_cons, ← ih]
    cases m.lookup k with
    | none | some l => rfl

theorem mergeSort_buckets [DecidableEq β] {m : Map β (List Nat)} {key : α → Option β}
    (hm : ∀ k, (m.lookup k).getD [] = positions (key · = some k) xs) {ks : List β}
    (hks : ks.Nodup) : ((ks.filterMap m.lookup).flatten).mergeSort =
      positions (fun x => (key x).any (· ∈ ks)) xs := by
  have hf : (ks.filterMap m.lookup).flatten =
      ks.flatMap fun k => positions (key · = some k) xs := by
    rw [flatten_filterMap_lookup]
    simp [hm]
  have hp := mergeSort_perm (ks.filterMap m.lookup).flatten (· ≤ ·)
  rw [hf] at hp ⊢
  refine eq_positions (pairwise_mergeSort' _ _) (hp.nodup_iff.mpr ?_) fun i => ?_
  · rw [nodup_flatMap]
    refine ⟨fun k _ => (sorted_positions _ xs).imp ne_of_lt, hks.imp fun {k l} hne => ?_⟩
    intro i hi hj
    obtain ⟨x, hx, hk⟩ := mem_positions.mp hi
    obtain ⟨y, hy, hl⟩ := mem_positions.mp hj
    obtain rfl : x = y := Option.some.inj (hx.symm.trans hy)
    exact hne (Option.some.inj ((of_decide_eq_true hk).symm.trans (of_decide_eq_true hl)))
  · rw [hp.mem_iff, mem_flatMap]
    constructor
    · rintro ⟨k, hk, hi⟩
      obtain ⟨x, hx, hke⟩ := mem_positions.mp hi
      exact ⟨x, hx, by simpa [of_decide_eq_true hke] using hk⟩
    · rintro ⟨x, hx, ha⟩
      obtain ⟨k, hke, hk⟩ := (Option.any_eq_true ..).mp ha
      exact ⟨k, of_decide_eq_true hk, mem_positions.mpr ⟨x, hx, by simpa using hke⟩⟩

end RioBuild.Lib
