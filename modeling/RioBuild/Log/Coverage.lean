import Mathlib.Order.Bounds.Basic
import RioBuild.Log.Dedup

namespace RioBuild.Log

open Lib Lib.Word

structure CoverageMap where
  spans : List (Nat × Nat) := []
  deriving DecidableEq, Repr

/-- The order `sort_unstable` uses on pairs. -/
def pairLe (a b : Nat × Nat) : Prop := toLex a ≤ toLex b

instance : DecidableRel pairLe := fun a b => inferInstanceAs (Decidable (toLex a ≤ toLex b))

instance : Std.Total pairLe := ⟨fun a b => le_total (toLex a) (toLex b)⟩

instance : IsTrans (Nat × Nat) pairLe := ⟨fun _ _ _ => le_trans⟩

namespace CoverageMap

def fromIntervals (intervals : List (Nat × Nat)) : CoverageMap where
  spans := (((intervals.filter fun c => 0 < c.2).map fun c =>
    (c.1, saturatingAdd c.1 c.2)).insertionSort pairLe).foldl pushSpan []

def coversRange (m : CoverageMap) (first stop : Nat) : Bool :=
  if stop ≤ first then false
  else match partitionPoint (fun r : Nat × Nat => decide (r.1 ≤ first)) m.spans with
    | 0 => false
    | i + 1 => match m.spans[i]? with
      | some r => decide (stop ≤ r.2)
      | none => false

def contiguousPrefixEnd (m : CoverageMap) : Nat :=
  match m.spans.head? with
  | some (0, stop) => stop
  | _ => 0

def contiguousDurableFrontier (m : CoverageMap) : Option Nat :=
  match m.contiguousPrefixEnd with
  | 0 => none
  | v + 1 => some v

def insert (m : CoverageMap) (firstLine lineCount : Nat) : CoverageMap :=
  if lineCount = 0 then m
  else fromIntervals ((m.spans.map fun r => (r.1, r.2 - r.1)) ++ [(firstLine, lineCount)])

def insertAll (m : CoverageMap) (intervals : List (Nat × Nat)) : CoverageMap :=
  intervals.foldl (fun m c => m.insert c.1 c.2) m

structure Denotes (m : CoverageMap) (lines : Set Nat) : Prop where
  canonical : Canonical m.spans
  bounded : ∀ r ∈ m.spans, r.2 ≤ u64Max
  covered_eq : covered m.spans = lines

theorem bounded_foldl_pushSpan {raw spans : List (Nat × Nat)}
    (hs : ∀ r ∈ spans, r.2 ≤ u64Max) (hra : ∀ r ∈ raw, r.2 ≤ u64Max) :
    ∀ r ∈ raw.foldl pushSpan spans, r.2 ≤ u64Max := by
  induction raw generalizing spans with
  | nil => exact hs
  | cons c raw ih =>
    refine ih (fun r hr => ?_) (fun r hr => hra r (by simp [hr]))
    have hc : c.2 ≤ u64Max := hra c (by simp)
    rcases spans.eq_nil_or_concat' with rfl | ⟨l, p, rfl⟩
    · rw [pushSpan, List.getLast?_nil, List.nil_append, List.mem_singleton] at hr
      exact hr ▸ hc
    · rw [pushSpan_concat] at hr
      split at hr
      · rcases List.mem_append.mp hr with hr | hr
        · exact hs r (by simp [hr])
        · rw [List.mem_singleton.mp hr]
          exact max_le (hs p (by simp)) hc
      · rcases List.mem_append.mp hr with hr | hr
        · exact hs r hr
        · exact List.mem_singleton.mp hr ▸ hc

theorem covered_filter_pos (intervals : List (Nat × Nat)) :
    covered ((intervals.filter fun c => 0 < c.2).map chunkSpan) =
      covered (intervals.map chunkSpan) := by
  ext l
  simp only [mem_covered, List.mem_map, List.mem_filter, chunkSpan, decide_eq_true_eq]
  constructor
  · rintro ⟨r, ⟨c, ⟨hc, _⟩, rfl⟩, hl⟩
    exact ⟨_, ⟨c, hc, rfl⟩, hl⟩
  · rintro ⟨r, ⟨c, hc, rfl⟩, hle, hlt⟩
    have hp : 0 < c.2 := by
      omega
    exact ⟨_, ⟨c, ⟨hc, hp⟩, rfl⟩, hle, hlt⟩

theorem denotes_fromIntervals (hf : ∀ c ∈ intervals, c.1 + c.2 ≤ u64Max) :
    (fromIntervals intervals).Denotes (covered (intervals.map chunkSpan)) := by
  have hra : (intervals.filter fun c => 0 < c.2).map (fun c => (c.1, saturatingAdd c.1 c.2)) =
      (intervals.filter fun c => 0 < c.2).map chunkSpan := by
    refine List.map_congr_left fun c hc => ?_
    rw [chunkSpan, saturatingAdd_eq (hf c (List.mem_filter.mp hc).1)]
  have hm : ∀ r ∈ ((intervals.filter fun c => 0 < c.2).map chunkSpan).insertionSort pairLe,
      r.1 < r.2 ∧ r.2 ≤ u64Max := by
    intro r hr
    obtain ⟨c, hc, rfl⟩ := List.mem_map.mp ((List.mem_insertionSort pairLe).mp hr)
    obtain ⟨hc, hp⟩ := List.mem_filter.mp hc
    have hp : 0 < c.2 := by simpa using hp
    exact ⟨Nat.lt_add_of_pos_right hp, hf c hc⟩
  have hs : (((intervals.filter fun c => 0 < c.2).map chunkSpan).insertionSort
      pairLe).Pairwise fun r s => r.1 ≤ s.1 := by
    refine (List.pairwise_insertionSort pairLe _).imp fun {r s} h => ?_
    rcases Prod.Lex.toLex_le_toLex.mp h with h | h
    · exact h.le
    · exact h.1.le
  obtain ⟨hca, hco⟩ := foldl_pushSpan canonical_nil hs (fun r hr => (hm r hr).1) (by simp)
  refine ⟨?_, ?_, ?_⟩
  · rw [fromIntervals, hra]
    exact hca
  · rw [fromIntervals, hra]
    exact bounded_foldl_pushSpan (by simp) fun r hr => (hm r hr).2
  · rw [fromIntervals, hra, hco, covered_nil, Set.empty_union,
      covered_perm (List.perm_insertionSort pairLe _), covered_filter_pos]

namespace Denotes

variable {m : CoverageMap} {lines : Set Nat}

section

variable (h : m.Denotes lines)
include h

theorem unique (h' : m'.Denotes lines) : m = m' := by
  cases m
  congr 1
  exact h.canonical.ext h'.canonical (h.covered_eq.trans h'.covered_eq.symm)

theorem insert (hf : first + count ≤ u64Max) :
    (m.insert first count).Denotes (lines ∪ Set.Ico first (first + count)) := by
  unfold CoverageMap.insert
  split
  · rename_i hz
    simpa [hz] using h
  · have hs : (m.spans.map fun r => (r.1, r.2 - r.1)).map chunkSpan = m.spans := by
      rw [List.map_map]
      refine (List.map_congr_left fun r hr => ?_).trans (List.map_id _)
      have := h.canonical.nonempty r hr
      exact Prod.ext rfl (Nat.add_sub_cancel' this.le)
    have hfi : ∀ c ∈ (m.spans.map fun r => (r.1, r.2 - r.1)) ++ [(first, count)],
        c.1 + c.2 ≤ u64Max := by
      intro c hc
      rcases List.mem_append.mp hc with hc | hc
      · obtain ⟨r, hr, rfl⟩ := List.mem_map.mp hc
        have := h.canonical.nonempty r hr
        exact (Nat.add_sub_cancel' this.le).trans_le (h.bounded r hr)
      · exact List.mem_singleton.mp hc ▸ hf
    have hn := denotes_fromIntervals hfi
    rw [List.map_append, hs, covered_append, h.covered_eq, List.map_cons, List.map_nil,
      covered_cons, covered_nil, Set.union_empty] at hn
    exact hn

theorem insertAll (hf : ∀ c ∈ intervals, c.1 + c.2 ≤ u64Max) :
    (m.insertAll intervals).Denotes (lines ∪ covered (intervals.map chunkSpan)) := by
  induction intervals generalizing m lines with
  | nil => simpa [insertAll] using h
  | cons c intervals ih =>
    have hr := ih (h.insert (hf c (by simp))) (fun d hd => hf d (by simp [hd]))
    rw [List.map_cons, covered_cons, ← Set.union_assoc]
    exact hr

theorem coversRange_iff (a b : Nat) : m.coversRange a b = true ↔ a < b ∧ Set.Ico a b ⊆ lines := by
  unfold coversRange
  split_ifs with hle
  · simp only [false_iff]
    omega
  · have hle : a < b := not_le.mp hle
    rw [← h.covered_eq, h.canonical.Ico_subset_iff hle,
      h.canonical.exists_iff_partitionPoint a b hle]
    split
    · rename_i hz
      simp [hz]
    · rename_i i hi
      cases hr : m.spans[i]? with
      | none => simp [hi, hr]
      | some r =>
        obtain ⟨start, stop⟩ := r
        simp [hi, hr, hle]

theorem lt_contiguousPrefixEnd_iff (l : Nat) : l < m.contiguousPrefixEnd ↔ ∀ k ≤ l, k ∈ lines := by
  rw [← h.covered_eq]
  have hc := h.canonical
  unfold contiguousPrefixEnd
  cases hs : m.spans with
  | nil =>
    simp only [List.head?_nil, Nat.not_lt_zero, covered_nil, Set.mem_empty_iff_false, imp_false,
      false_iff, not_forall, not_not]
    exact ⟨0, Nat.zero_le l⟩
  | cons r spans =>
    rw [hs] at hc
    obtain ⟨start, stop⟩ := r
    cases start with
    | zero =>
      constructor
      · intro hl k hk
        exact ⟨(0, stop), by simp, Nat.zero_le k, hk.trans_lt hl⟩
      · intro ha
        by_contra hl
        exact hc.end_notMem (r := (0, stop)) (by simp) (ha stop (not_lt.mp hl))
    | succ start =>
      simp only [List.head?_cons, Nat.not_lt_zero, false_iff, not_forall]
      refine ⟨0, Nat.zero_le l, ?_⟩
      rw [covered_cons]
      rintro (hi | hi)
      · exact absurd hi.1 (by simp)
      · exact absurd (hc.lt_of_mem_tail hi) (by simp)

theorem frontier_eq_some_iff (v : Nat) :
    m.contiguousDurableFrontier = some v ↔ IsGreatest {v | ∀ l ≤ v, l ∈ lines} v := by
  have he : m.contiguousDurableFrontier = some v ↔ m.contiguousPrefixEnd = v + 1 := by
    unfold contiguousDurableFrontier
    cases m.contiguousPrefixEnd with
    | zero | succ n => simp
  rw [he]
  constructor
  · intro hv
    refine ⟨(h.lt_contiguousPrefixEnd_iff v).mp (by omega), fun u hu => ?_⟩
    have := (h.lt_contiguousPrefixEnd_iff u).mpr hu
    omega
  · rintro ⟨hm, hma⟩
    have hlt := (h.lt_contiguousPrefixEnd_iff v).mpr hm
    by_contra hne
    have hn : v + 1 ≤ v := hma ((h.lt_contiguousPrefixEnd_iff (v + 1)).mp (by omega))
    omega

theorem frontier_eq_none_iff : m.contiguousDurableFrontier = none ↔ 0 ∉ lines := by
  have hz := h.lt_contiguousPrefixEnd_iff 0
  simp only [Nat.le_zero, forall_eq] at hz
  rw [← hz, contiguousDurableFrontier]
  cases m.contiguousPrefixEnd with
  | zero | succ n => simp

theorem mem_of_le_frontier (hv : m.contiguousDurableFrontier = some v) (hl : l ≤ v) : l ∈ lines :=
  ((h.frontier_eq_some_iff v).mp hv).1 l hl

theorem frontier_mono {m' : CoverageMap} (h' : m'.Denotes lines')
    (hs : lines ⊆ lines') (hv : m.contiguousDurableFrontier = some v) :
    ∃ v', m'.contiguousDurableFrontier = some v' ∧ v ≤ v' := by
  cases hf : m'.contiguousDurableFrontier with
  | none => exact absurd (hs (h.mem_of_le_frontier hv v.zero_le)) (h'.frontier_eq_none_iff.mp hf)
  | some v' =>
    refine ⟨v', rfl, ((h'.frontier_eq_some_iff v').mp hf).2 fun l hl => ?_⟩
    exact hs (h.mem_of_le_frontier hv hl)

end

end Denotes

/-- Any run of insertions keeps the map the normal form of everything it was given. -/
theorem coverage_exact (initial inserted : List (Nat × Nat))
    (hinitial : ∀ c ∈ initial, c.1 + c.2 ≤ u64Max)
    (hinserted : ∀ c ∈ inserted, c.1 + c.2 ≤ u64Max) :
    let m := (fromIntervals initial).insertAll inserted
    let lines := covered ((initial ++ inserted).map chunkSpan)
    Canonical m.spans ∧ covered m.spans = lines ∧
      (∀ initial' inserted' : List (Nat × Nat), (∀ c ∈ initial', c.1 + c.2 ≤ u64Max) →
        (∀ c ∈ inserted', c.1 + c.2 ≤ u64Max) →
        (∀ c, c ∈ initial' ++ inserted' ↔ c ∈ initial ++ inserted) →
        (fromIntervals initial').insertAll inserted' = m) ∧
      (∀ a b, m.coversRange a b = true ↔ a < b ∧ Set.Ico a b ⊆ lines) ∧
      (∀ v, m.contiguousDurableFrontier = some v ↔ IsGreatest {v | ∀ l ≤ v, l ∈ lines} v) ∧
      (m.contiguousDurableFrontier = none ↔ 0 ∉ lines) ∧
      (∀ first count, first + count ≤ u64Max → ∀ v, m.contiguousDurableFrontier = some v →
        ∃ v', (m.insert first count).contiguousDurableFrontier = some v' ∧ v ≤ v') := by
  have hr : ∀ initial inserted : List (Nat × Nat), (∀ c ∈ initial, c.1 + c.2 ≤ u64Max) →
      (∀ c ∈ inserted, c.1 + c.2 ≤ u64Max) → ((fromIntervals initial).insertAll inserted).Denotes
        (covered ((initial ++ inserted).map chunkSpan)) := by
    intro initial inserted hinitial hinserted
    rw [List.map_append, covered_append]
    exact (denotes_fromIntervals hinitial).insertAll hinserted
  have h := hr initial inserted hinitial hinserted
  refine ⟨h.canonical, h.covered_eq, ?_, h.coversRange_iff, h.frontier_eq_some_iff,
    h.frontier_eq_none_iff, ?_⟩
  · intro initial' inserted' hinitial' hinserted' hs
    have h' := hr initial' inserted' hinitial' hinserted'
    have hl : covered ((initial' ++ inserted').map chunkSpan) =
        covered ((initial ++ inserted).map chunkSpan) := by
      ext l
      simp only [mem_covered, List.mem_map, hs]
    rw [hl] at h'
    exact h'.unique h
  · intro first count hf v hv
    exact h.frontier_mono (h.insert hf) Set.subset_union_left hv

theorem coverage_exact_hole :
    ((fromIntervals [(4, 2), (9, 1), (5, 2)]).insertAll [(0, 4)]).spans = [(0, 7), (9, 10)] ∧
      ((fromIntervals [(4, 2), (9, 1), (5, 2)]).insertAll [(0, 4)]).contiguousDurableFrontier =
        some 6 ∧
      covered ((fromIntervals [(4, 2), (9, 1), (5, 2)]).insertAll [(0, 4)]).spans =
        covered (([(4, 2), (9, 1), (5, 2)] ++ [(0, 4)]).map chunkSpan) :=
  ⟨by decide, by decide, (coverage_exact _ _ (by decide) (by decide)).2.1⟩

end CoverageMap

end RioBuild.Log
