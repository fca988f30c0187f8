import Mathlib.Data.List.Sort
import Mathlib.Data.Prod.Lex
import Mathlib.Order.Interval.Set.LinearOrder
import Mathlib.Order.MinMax

namespace RioBuild.Lib

open List

variable {α : Type*} [LinearOrder α]

def covered (spans : List (α × α)) : Set α := {x | ∃ r ∈ spans, r.1 ≤ x ∧ x < r.2}

@[simp] theorem mem_covered {spans : List (α × α)} :
    x ∈ covered spans ↔ ∃ r ∈ spans, r.1 ≤ x ∧ x < r.2 := Iff.rfl

@[simp] theorem covered_nil : covered ([] : List (α × α)) = ∅ := by
  ext x
  simp

theorem covered_cons (spans : List (α × α)) :
    covered (r :: spans) = Set.Ico r.1 r.2 ∪ covered spans := by
  ext x
  simp

theorem covered_append (l m : List (α × α)) : covered (l ++ m) = covered l ∪ covered m := by
  ext x
  simp [or_and_right, exists_or]

theorem covered_perm {l m : List (α × α)} (h : l.Perm m) : covered l = covered m := by
  ext x
  simp [h.mem_iff]

/-- Sorted, non-empty, disjoint and non-adjacent. -/
structure Canonical (spans : List (α × α)) : Prop where
  nonempty : ∀ r ∈ spans, r.1 < r.2
  separated : spans.Pairwise fun r s => r.2 < s.1

theorem canonical_nil : Canonical ([] : List (α × α)) := ⟨by simp, .nil⟩

namespace Canonical

variable {spans : List (α × α)} {r : α × α}

theorem tail (h : Canonical (r :: spans)) : Canonical spans :=
  ⟨fun s hs => h.nonempty s (mem_cons_of_mem _ hs), h.separated.of_cons⟩

theorem lt_of_mem_tail (h : Canonical (r :: spans)) (hx : x ∈ covered spans) : r.2 < x := by
  obtain ⟨s, hs, hle, _⟩ := hx
  exact ((pairwise_cons.mp h.separated).1 s hs).trans_le hle

theorem end_notMem (h : Canonical spans) (hr : r ∈ spans) : r.2 ∉ covered spans := by
  induction spans with
  | nil => simp at hr
  | cons s spans ih =>
    rw [covered_cons]
    rintro (⟨hle, hlt⟩ | hc)
    · rcases mem_cons.mp hr with rfl | hm
      · exact lt_irrefl _ hlt
      · have hs := (pairwise_cons.mp h.separated).1 r hm
        exact lt_asymm (hs.trans (h.nonempty r hr)) hlt
    · rcases mem_cons.mp hr with rfl | hm
      · exact lt_irrefl _ (h.lt_of_mem_tail hc)
      · exact ih h.tail hm hc

theorem covered_cons_inj (hl : Canonical (r :: l)) (hm : Canonical (s :: m))
    (h : covered (r :: l) = covered (s :: m)) : r = s := by
  have hs : ∀ {r s : α × α} {l m : List (α × α)}, Canonical (r :: l) → Canonical (s :: m) →
      covered (r :: l) = covered (s :: m) → s.1 ≤ r.1 := by
    intro r s l m hl hm h
    have hr : r.1 ∈ covered (s :: m) := by
      rw [← h]
      exact ⟨r, by simp, le_rfl, hl.nonempty r (by simp)⟩
    rw [covered_cons] at hr
    rcases hr with hr | hr
    · exact hr.1
    · exact ((hm.nonempty s (by simp)).trans (hm.lt_of_mem_tail hr)).le
  have he : ∀ {r s : α × α} {l m : List (α × α)}, Canonical (r :: l) → r.1 = s.1 →
      covered (r :: l) = covered (s :: m) → s.2 ≤ r.2 := by
    intro r s l m hl h1 h
    by_contra hlt
    refine hl.end_notMem (r := r) (by simp) ?_
    rw [h]
    exact ⟨s, by simp, h1 ▸ (hl.nonempty r (by simp)).le, not_le.mp hlt⟩
  have h1 : r.1 = s.1 := le_antisymm (hs hm hl h.symm) (hs hl hm h)
  exact Prod.ext h1 (le_antisymm (he hm h1.symm h.symm) (he hl h1 h))

theorem covered_tail_iff (h : Canonical (r :: spans)) :
    x ∈ covered spans ↔ x ∈ covered (r :: spans) ∧ r.2 < x := by
  rw [covered_cons]
  constructor
  · intro hx
    exact ⟨.inr hx, h.lt_of_mem_tail hx⟩
  · rintro ⟨hx | hx, hlt⟩
    · exact absurd hx.2 (not_lt.mpr hlt.le)
    · exact hx

theorem ext {l m : List (α × α)} (hl : Canonical l) (hm : Canonical m)
    (h : covered l = covered m) : l = m := by
  induction l generalizing m with
  | nil =>
    cases m with
    | nil => rfl
    | cons s m =>
      have : s.1 ∈ covered [] := by
        rw [h]
        exact ⟨s, by simp, le_rfl, hm.nonempty s (by simp)⟩
      simp at this
  | cons r l ih =>
    cases m with
    | nil =>
      have : r.1 ∈ covered [] := by
        rw [← h]
        exact ⟨r, by simp, le_rfl, hl.nonempty r (by simp)⟩
      simp at this
    | cons s m =>
      obtain rfl := hl.covered_cons_inj hm h
      congr 1
      apply ih hl.tail hm.tail
      ext x
      rw [hl.covered_tail_iff, hm.covered_tail_iff, h]

theorem Ico_subset_iff (h : Canonical spans) (hab : a < b) :
    Set.Ico a b ⊆ covered spans ↔ ∃ r ∈ spans, r.1 ≤ a ∧ b ≤ r.2 := by
  constructor
  · intro hs
    obtain ⟨r, hr, hle, hlt⟩ := hs ⟨le_refl a, hab⟩
    refine ⟨r, hr, hle, ?_⟩
    by_contra hb
    exact h.end_notMem hr (hs ⟨hlt.le, not_le.mp hb⟩)
  · rintro ⟨r, hr, ha, hb⟩ x ⟨hax, hx⟩
    exact ⟨r, hr, ha.trans hax, hx.trans_le hb⟩

end Canonical

/-- Push a span onto a canonical list that it does not start before: overlapping or
exactly adjacent spans are joined. -/
def pushSpan (spans : List (α × α)) (r : α × α) : List (α × α) :=
  match spans.getLast? with
  | some p => if r.1 ≤ p.2 then spans.dropLast ++ [(p.1, max p.2 r.2)] else spans ++ [r]
  | none => spans ++ [r]

theorem pushSpan_concat (p r : α × α) :
    pushSpan (l ++ [p]) r = if r.1 ≤ p.2 then l ++ [(p.1, max p.2 r.2)] else l ++ [p] ++ [r] := by
  simp [pushSpan]

theorem covered_pushSpan {spans : List (α × α)} {r : α × α} (hr : ∀ p ∈ spans, p.1 ≤ r.1) :
    covered (pushSpan spans r) = covered spans ∪ Set.Ico r.1 r.2 := by
  rcases spans.eq_nil_or_concat' with rfl | ⟨l, p, rfl⟩
  · simp [pushSpan, covered_cons]
  · rw [pushSpan_concat]
    have hp : p.1 ≤ r.1 := hr p (by simp)
    split_ifs with ht
    · have hj : Set.Ico p.1 (max p.2 r.2) = Set.Ico p.1 p.2 ∪ Set.Ico r.1 r.2 := by
        ext x
        simp only [Set.mem_Ico, lt_max_iff]
        constructor
        · rintro ⟨hx, hlt | hlt⟩
          · exact .inl ⟨hx, hlt⟩
          · rcases lt_or_ge x r.1 with hxr | hxr
            · exact .inl ⟨hx, hxr.trans_le ht⟩
            · exact .inr ⟨hxr, hlt⟩
        · rintro (⟨hx, hlt⟩ | ⟨hx, hlt⟩)
          · exact ⟨hx, .inl hlt⟩
          · exact ⟨hp.trans hx, .inr hlt⟩
      simp [covered_append, covered_cons, hj, Set.union_assoc]
    · simp [covered_append, covered_cons, Set.union_assoc]

theorem Canonical.pushSpan {r : α × α} (h : Canonical spans) (hne : r.1 < r.2)
    (hr : ∀ p ∈ spans, p.1 ≤ r.1) : Canonical (pushSpan spans r) := by
  rcases spans.eq_nil_or_concat' with rfl | ⟨l, p, rfl⟩
  · exact ⟨by simpa [Lib.pushSpan] using hne, by simp [Lib.pushSpan]⟩
  · have hse := pairwise_append.mp h.separated
    have hb : ∀ q ∈ l, q.2 < p.1 := fun q hq => hse.2.2 q hq p (by simp)
    have hp : p.1 < p.2 := h.nonempty p (by simp)
    have hl : ∀ q ∈ l, q.1 < q.2 := fun q hq => h.nonempty q (by simp [hq])
    rw [pushSpan_concat]
    split_ifs with hg
    · refine ⟨?_, ?_⟩
      · intro q hq
        rcases mem_append.mp hq with hq | hq
        · exact hl q hq
        · rw [mem_singleton.mp hq]
          exact hp.trans_le (le_max_left _ _)
      · refine pairwise_append.mpr ⟨hse.1, by simp, ?_⟩
        intro q hq s hs
        rw [mem_singleton.mp hs]
        exact hb q hq
    · refine ⟨?_, ?_⟩
      · intro q hq
        rcases mem_append.mp hq with hq | hq
        · exact h.nonempty q hq
        · rw [mem_singleton.mp hq]
          exact hne
      · refine pairwise_append.mpr ⟨h.separated, by simp, ?_⟩
        intro q hq s hs
        rw [mem_singleton.mp hs]
        rcases mem_append.mp hq with hq | hq
        · exact (hb q hq).trans (hp.trans (not_le.mp hg))
        · rw [mem_singleton.mp hq]
          exact not_le.mp hg

theorem start_le_of_mem_pushSpan {r q : α × α}
    (hs : ∀ p ∈ spans, p.1 ≤ a) (hr : r.1 ≤ a) (hq : q ∈ pushSpan spans r) : q.1 ≤ a := by
  rcases spans.eq_nil_or_concat' with rfl | ⟨l, p, rfl⟩
  · simp only [pushSpan, getLast?_nil, nil_append, mem_singleton] at hq
    rw [hq]
    exact hr
  · rw [pushSpan_concat] at hq
    split at hq
    · rcases mem_append.mp hq with hq | hq
      · exact hs q (by simp [hq])
      · rw [mem_singleton.mp hq]
        exact hs p (by simp)
    · rcases mem_append.mp hq with hq | hq
      · exact hs q hq
      · rw [mem_singleton.mp hq]
        exact hr

theorem foldl_pushSpan {raw spans : List (α × α)} (h : Canonical spans)
    (hso : raw.Pairwise fun r s => r.1 ≤ s.1) (hne : ∀ r ∈ raw, r.1 < r.2)
    (ha : ∀ p ∈ spans, ∀ r ∈ raw, p.1 ≤ r.1) : Canonical (raw.foldl pushSpan spans) ∧
      covered (raw.foldl pushSpan spans) = covered spans ∪ covered raw := by
  induction raw generalizing spans with
  | nil => simpa using h
  | cons r raw ih =>
    have hr : ∀ p ∈ spans, p.1 ≤ r.1 := fun p hp => ha p hp r (by simp)
    have hre := pairwise_cons.mp hso
    have hst : ∀ p ∈ pushSpan spans r, ∀ q ∈ raw, p.1 ≤ q.1 := by
      intro p hp q hq
      exact start_le_of_mem_pushSpan (fun s hs => ha s hs q (by simp [hq])) (hre.1 q hq) hp
    obtain ⟨hc, hco⟩ := ih (h.pushSpan (hne r (by simp)) hr) hre.2
      (fun q hq => hne q (by simp [hq])) hst
    refine ⟨hc, ?_⟩
    rw [foldl_cons, hco, covered_pushSpan hr, covered_cons, Set.union_assoc]

def partitionPoint {β : Type*} (p : β → Bool) (l : List β) : Nat := l.findIdx fun b => !p b

theorem Canonical.exists_iff_partitionPoint (h : Canonical spans) (a b : α) (ha : a < b) :
    (∃ r ∈ spans, r.1 ≤ a ∧ b ≤ r.2) ↔
      ∃ i r, partitionPoint (fun r : α × α => decide (r.1 ≤ a)) spans = i + 1 ∧
        spans[i]? = some r ∧ b ≤ r.2 := by
  induction spans with
  | nil => simp
  | cons s spans ih =>
    have hse := (pairwise_cons.mp h.separated).1
    have hs := h.nonempty s (by simp)
    by_cases hsa : s.1 ≤ a
    · have hp : partitionPoint (fun r : α × α => decide (r.1 ≤ a)) (s :: spans) =
          partitionPoint (fun r : α × α => decide (r.1 ≤ a)) spans + 1 := by
        simp [partitionPoint, findIdx_cons, hsa]
      rw [hp]
      constructor
      · rintro ⟨r, hr, hra, hrb⟩
        rcases mem_cons.mp hr with rfl | hr
        · have hz : partitionPoint (fun r : α × α => decide (r.1 ≤ a)) spans = 0 := by
            cases spans with
            | nil => rfl
            | cons q spans =>
              have : a < q.1 := ha.trans_le (hrb.trans (hse q (by simp)).le)
              simp [partitionPoint, findIdx_cons, not_le.mpr this]
          exact ⟨0, r, by rw [hz], rfl, hrb⟩
        · obtain ⟨i, q, hi, hq, hqb⟩ := (ih h.tail).mp ⟨r, hr, hra, hrb⟩
          exact ⟨i + 1, q, by rw [hi], hq, hqb⟩
      · rintro ⟨i, r, hi, hr, hrb⟩
        cases i with
        | zero => exact ⟨s, by simp, hsa, by simp_all⟩
        | succ i =>
          obtain ⟨q, hq, hqa, hqb⟩ := (ih h.tail).mpr ⟨i, r, by omega, hr, hrb⟩
          exact ⟨q, by simp [hq], hqa, hqb⟩
    · have hz : partitionPoint (fun r : α × α => decide (r.1 ≤ a)) (s :: spans) = 0 := by
        simp [partitionPoint, findIdx_cons, hsa]
      constructor
      · rintro ⟨r, hr, hra, _⟩
        rcases mem_cons.mp hr with rfl | hr
        · exact absurd hra hsa
        · exact absurd ((hs.trans (hse r hr)).le.trans hra) hsa
      · rintro ⟨i, r, hi, _⟩
        omega

/-- The spans divide `[a, b)` in order: each is non-empty and begins where the one before it
ends. -/
def Tiles : α → List (α × α) → α → Prop
  | a, [], b => a = b
  | a, r :: spans, b => r.1 = a ∧ a < r.2 ∧ Tiles r.2 spans b

namespace Tiles

variable {l : List (α × α)}

theorem append (h : Tiles a l b) (hm : Tiles b m c) : Tiles a (l ++ m) c := by
  induction l generalizing a with
  | nil =>
    obtain rfl : a = b := h
    exact hm
  | cons r l ih => exact ⟨h.1, h.2.1, ih h.2.2⟩

theorem le (h : Tiles a l b) : a ≤ b := by
  induction l generalizing a with
  | nil => exact le_of_eq h
  | cons r l ih => exact h.2.1.le.trans (ih h.2.2)

theorem bounds_of_mem (h : Tiles a l b) (hr : r ∈ l) : a ≤ r.1 ∧ r.2 ≤ b := by
  induction l generalizing a with
  | nil => simp at hr
  | cons s l ih =>
    obtain ⟨hs, hlt, hre⟩ := h
    rcases mem_cons.mp hr with rfl | hr
    · exact ⟨hs.ge, hre.le⟩
    · exact ⟨hlt.le.trans (ih hre hr).1, (ih hre hr).2⟩

end Tiles

end RioBuild.Lib
