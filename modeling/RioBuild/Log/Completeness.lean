import RioBuild.Log.Coverage

namespace RioBuild.Log

open Lib Lib.Word

variable {rows : List (Nat × Nat)} {c m : Nat}

theorem coverFrom_of_le (h : m ≤ c) : coverFrom m c rows = c := by
  cases rows with
  | nil => rfl
  | cons r rows => exact if_pos h

theorem le_coverFrom_iff (hs : rows.Pairwise fun a b => a.1 ≤ b.1)
    (hf : ∀ r ∈ rows, r.1 + r.2 ≤ u64Max) (hc : c < m) :
    m ≤ coverFrom m c rows ↔ ∀ l, c ≤ l → l < m → l ∈ covered (rows.map chunkSpan) := by
  induction rows generalizing c with
  | nil =>
    refine iff_of_false (not_le.mpr hc) fun h => ?_
    obtain ⟨r, hr, -⟩ := h c le_rfl hc
    cases hr
  | cons r rows ih =>
    obtain ⟨first, count⟩ := r
    obtain ⟨hle, hs⟩ := List.pairwise_cons.mp hs
    obtain ⟨hfit, hf⟩ := List.forall_mem_cons.mp hf
    have hm {l : Nat} : l ∈ covered (((first, count) :: rows).map chunkSpan) ↔
        (first ≤ l ∧ l < first + count) ∨ l ∈ covered (rows.map chunkSpan) := by
      rw [List.map_cons, covered_cons]
      rfl
    rw [coverFrom, if_neg (not_le.mpr hc), saturatingAdd_eq hfit]
    by_cases hg : c < first
    · -- No row starts early enough for the line `c`.
      rw [if_pos hg]
      refine iff_of_false (not_le.mpr hc) fun h => ?_
      rcases hm.mp (h c le_rfl hc) with hi | ⟨_, hr, hi⟩
      · omega
      · obtain ⟨q, hq, rfl⟩ := List.mem_map.mp hr
        have hfs := hle q hq
        have hst : q.1 ≤ c := hi.1
        omega
    · rw [if_neg hg]
      simp only [hm]
      by_cases hd : m ≤ max c (first + count)
      · rw [coverFrom_of_le hd]
        exact iff_of_true hd fun l _ _ => .inl (by omega)
      · rw [ih hs hf (Nat.lt_of_not_le hd)]
        constructor
        · intro h l hl hlm
          by_cases hlt : l < max c (first + count)
          · exact .inl (by omega)
          · exact .inr (h l (Nat.le_of_not_lt hlt) hlm)
        · intro h l hl hlm
          exact (h l (by omega) hlm).resolve_left (by omega)

theorem manifestCoversFrom_eq (hf : ∀ r ∈ rows, r.1 + r.2 ≤ i64Max) (hc : c < m) :
    manifestCoversFrom m c (rows.map fun r => ((r.1 : Int), (r.2 : Int))) =
      decide (m ≤ coverFrom m c rows) := by
  induction rows generalizing c with
  | nil => exact decide_eq_decide.mpr Int.ofNat_le
  | cons r rows ih =>
    obtain ⟨first, count⟩ := r
    obtain ⟨hfit, hf⟩ := List.forall_mem_cons.mp hf
    have hm : max (c : Int) (first + count : Nat) = (max c (first + count) : Nat) := by
      omega
    have hs : saturatingAddI64 first count = (first + count : Nat) := by
      have : first + count ≤ 2 ^ 63 - 1 := hfit
      unfold saturatingAddI64
      omega
    rw [List.map_cons, manifestCoversFrom, hs, hm, coverFrom,
      if_neg (not_le.mpr hc), saturatingAdd_eq (hfit.trans i64Max_le)]
    by_cases hg : c < first
    · rw [if_pos (by exact_mod_cast hg), if_pos hg, decide_eq_false (not_le.mpr hc)]
    · rw [if_neg (by exact_mod_cast hg), if_neg hg]
      by_cases hd : m ≤ max c (first + count)
      · rw [if_pos (by exact_mod_cast hd)]
        rw [coverFrom_of_le hd, decide_eq_true hd]
      · rw [if_neg (by exact_mod_cast hd), ih hf (Nat.lt_of_not_le hd)]

/-- The manifest covers the log up to a line past the start if and only if every line is in some
row, and the coverage map says the same.  Up to the start there is nothing to cover, but a first row
further on is taken for a hole. -/
theorem manifestCoversContiguously_iff (rows : List (Nat × Nat))
    (hsorted : rows.Pairwise fun a b => a.1 ≤ b.1) (hfits : ∀ r ∈ rows, r.1 + r.2 ≤ i64Max)
    (upTo : Nat) :
    (manifestCoversContiguously (rows.map fun r => ((r.1 : Int), (r.2 : Int))) upTo = true ↔
      (∀ l < upTo, ∃ r ∈ rows, r.1 ≤ l ∧ l < r.1 + r.2) ∧ (upTo = 0 → ∀ r ∈ rows.head?, r.1 = 0)) ∧
      ((∀ l < upTo, ∃ r ∈ rows, r.1 ≤ l ∧ l < r.1 + r.2) ↔
        upTo ≤ (CoverageMap.fromIntervals rows).contiguousPrefixEnd) := by
  have hl {l : Nat} : l ∈ covered (rows.map chunkSpan) ↔ ∃ r ∈ rows, r.1 ≤ l ∧ l < r.1 + r.2 := by
    simp [mem_covered, chunkSpan]
  have hm := CoverageMap.denotes_fromIntervals fun r hr => (hfits r hr).trans i64Max_le
  cases upTo with
  | zero =>
    refine ⟨?_, iff_of_true nofun (Nat.zero_le _)⟩
    cases rows with
    | nil => simp [manifestCoversContiguously, manifestCoversFrom]
    | cons r rows =>
      rw [manifestCoversContiguously, List.map_cons, manifestCoversFrom]
      simp
  | succ n =>
    refine ⟨?_, ?_⟩
    · rw [manifestCoversContiguously, ← Int.natCast_zero,
        manifestCoversFrom_eq hfits (Nat.succ_pos n), decide_eq_true_iff,
        le_coverFrom_iff hsorted (fun r hr => (hfits r hr).trans i64Max_le) (Nat.succ_pos n)]
      simp [hl]
    · rw [Nat.succ_le_iff, hm.lt_contiguousPrefixEnd_iff]
      exact forall_congr' fun l => imp_congr Nat.lt_succ_iff hl.symm

theorem manifestCoversContiguously_overlap :
    manifestCoversContiguously ([(0, 3), (2, 2), (2, 2), (4, 0), (4, 1)].map fun r : Nat × Nat =>
      ((r.1 : Int), (r.2 : Int))) 5 = true ∧
    5 ≤ (CoverageMap.fromIntervals [(0, 3), (2, 2), (2, 2), (4, 0), (4, 1)]).contiguousPrefixEnd :=
  have h := manifestCoversContiguously_iff [(0, 3), (2, 2), (2, 2), (4, 0), (4, 1)] (by decide)
    (by decide) 5
  have hl := h.2.mpr (by decide)
  ⟨h.1.mpr ⟨hl, nofun⟩, h.2.mp hl⟩

theorem manifestCoversContiguously_late_row : manifestCoversContiguously [(1, 1)] 0 = false ∧
      0 ≤ (CoverageMap.fromIntervals [(1, 1)]).contiguousPrefixEnd := by
  decide

end RioBuild.Log
