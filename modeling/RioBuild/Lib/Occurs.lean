import Mathlib

namespace RioBuild.Lib

open List

variable {l : List α}

theorem rtake_append (a b : List α) : (a ++ b).rtake n = a.rtake (n - b.length) ++ b.rtake n := by
  simp [rtake_eq_reverse_take_reverse, take_append]

theorem rtake_of_length_le (h : l.length ≤ n) : l.rtake n = l := by
  rw [rtake, Nat.sub_eq_zero_of_le h, drop_zero]

theorem rtake_min_length : l.rtake (min n l.length) = l.rtake n := by
  rcases le_total n l.length with h | h
  · rw [min_eq_left h]
  · rw [min_eq_right h, rtake_of_length_le le_rfl, rtake_of_length_le h]

theorem rtake_rtake : (l.rtake n).rtake m = l.rtake (min m n) := by
  rw [rtake, rtake, drop_drop, length_drop]
  congr 1
  omega

theorem length_rtake : (l.rtake n).length = min n l.length := by
  rw [rtake, length_drop]
  omega

theorem rtake_suffix (n : Nat) (l : List α) : l.rtake n <:+ l := drop_suffix _ l

theorem infix_append_iff : w <:+: a ++ b ↔
    w <:+: a ∨ w <:+: b ∨ w <:+: a.rtake (w.length - 1) ++ b.take w.length := by
  constructor
  · rintro ⟨s, t, h⟩
    rcases append_eq_append_iff.mp h with ⟨a', ha, -⟩ | ⟨c, hs, hb⟩
    · exact .inl ⟨s, a', ha.symm⟩
    rcases append_eq_append_iff.mp hs with ⟨a', ha, hw⟩ | ⟨s', -, hc⟩
    · by_cases hn : a' = [] ∨ c = []
      · rcases hn with rfl | rfl
        · exact .inr (.inl ⟨[], t, by rw [hb, hw]; rfl⟩)
        · exact .inl ⟨s, [], by simp [ha, hw]⟩
      · -- The word begins before the cut and ends after it.
        have hc := length_pos_of_ne_nil (not_or.mp hn).2
        have hl : w.length = a'.length + c.length := by rw [hw, length_append]
        refine .inr (.inr ?_)
        rw [ha, hb, rtake_append, rtake_of_length_le (l := a') (by omega), take_append]
        refine ⟨s.rtake (w.length - 1 - a'.length), t.take (w.length - c.length), ?_⟩
        simp [hw]
    · exact .inr (.inl ⟨s', t, by rw [hb, hc]⟩)
  · rintro (h | h | h)
    · exact h.trans (prefix_append a b).isInfix
    · exact h.trans (suffix_append a b).isInfix
    · refine h.trans ?_
      obtain ⟨a1, ha⟩ := rtake_suffix (w.length - 1) a
      refine ⟨a1, b.drop w.length, ?_⟩
      rw [← append_assoc, ha, append_assoc, take_append_drop]

theorem infix_iff_exists_take :
    w <:+: l ↔ ∃ i, i + w.length ≤ l.length ∧ (l.drop i).take w.length = w := by
  constructor
  · rintro ⟨s, t, rfl⟩
    refine ⟨s.length, by simp, ?_⟩
    rw [append_assoc, drop_left, take_left]
  · rintro ⟨i, -, h⟩
    rw [← h]
    exact ( take_prefix _ _).isInfix.trans (drop_suffix i l).isInfix

end RioBuild.Lib
