import RioBuild.Lib.Spans
import RioBuild.Log.Kernel

namespace RioBuild.Log

open Lib Lib.Word List ChunkVisit

def walk : Nat → List (Nat × Nat) → List ChunkVisit
  | _, [] => []
  | w, (first, n) :: chunks =>
    visitChunk w first n :: walk (visitChunk w first n).nextLine chunks

def watermark : Nat → List (Nat × Nat) → Nat
  | w, [] => w
  | w, (first, n) :: chunks => watermark (visitChunk w first n).nextLine chunks

def chunkSpan (c : Nat × Nat) : Nat × Nat := (c.1, c.1 + c.2)

def served (w : Nat) (chunks : List (Nat × Nat)) : List (Nat × Nat) :=
  (walk w chunks).filterMap yielded

def skipped (w : Nat) (chunks : List (Nat × Nat)) : List (Nat × Nat) :=
  (walk w chunks).filterMap gap

section Visit

variable {w f n : Nat}

theorem visitChunk_exact (w : Nat) (h : f + n ≤ u64Max) :
    (visitChunk w f n = .skip w ∧ (n = 0 ∨ f + n ≤ w)) ∨
      (visitChunk w f n = .serve w (f + n) (f + n) ∧ f ≤ w ∧ w < f + n) ∨
      (visitChunk w f n = .gapThenServe w f f (f + n) (f + n) ∧ w < f ∧ 0 < n) := by
  rcases visitChunk_cases w f n with ⟨he, hn⟩ | ⟨he, hle, hlt⟩ | ⟨he, hlt, hn⟩
  · rw [saturatingAdd_eq h] at hn
    exact .inl ⟨he, hn⟩
  · rw [saturatingAdd_eq h] at he hlt
    exact .inr (.inl ⟨he, hle, hlt⟩)
  · rw [saturatingAdd_eq h] at he
    refine .inr (.inr ⟨he, hlt, Nat.pos_of_ne_zero ?_⟩)
    rintro rfl
    simp [visitChunk] at he

theorem nextLine_visitChunk (w : Nat) (h : f + n ≤ u64Max) :
    (visitChunk w f n).nextLine = if n = 0 then w else max w (f + n) := by
  rcases visitChunk_exact w h with ⟨he, hn⟩ | ⟨he, hle, hlt⟩ | ⟨he, hlt, hn⟩ <;>
    rw [he, nextLine] <;> split <;> omega

theorem mem_yielded (w : Nat) (h : f + n ≤ u64Max) :
    (∃ r ∈ (visitChunk w f n).yielded, r.1 ≤ l ∧ l < r.2) ↔ w ≤ l ∧ f ≤ l ∧ l < f + n := by
  rcases visitChunk_exact w h with ⟨he, hn⟩ | ⟨he, hle, hlt⟩ | ⟨he, hlt, hn⟩
  all_goals
    simp [he, yielded]
    omega

theorem mem_gap (w : Nat) (h : f + n ≤ u64Max) : (∃ r ∈ (visitChunk w f n).gap, r.1 ≤ l ∧ l < r.2) ↔
    w ≤ l ∧ l < (visitChunk w f n).nextLine ∧ ¬(f ≤ l ∧ l < f + n) := by
  rcases visitChunk_exact w h with ⟨he, hn⟩ | ⟨he, hle, hlt⟩ | ⟨he, hlt, hn⟩
  all_goals
    simp [he, gap, nextLine]
    omega

theorem yielded_bounds (h : f + n ≤ u64Max) (hr : (visitChunk w f n).yielded = some r) :
    w ≤ r.1 ∧ r.1 < r.2 ∧ r.2 = (visitChunk w f n).nextLine := by
  rcases visitChunk_exact w h with ⟨he, hn⟩ | ⟨he, hle, hlt⟩ | ⟨he, hlt, hn⟩ <;>
    simp only [he, yielded, nextLine, reduceCtorEq,
      Option.some.injEq] at hr ⊢ <;> subst hr <;> simp <;> omega

end Visit

theorem le_watermark (hbound : ∀ c ∈ chunks, c.1 + c.2 ≤ u64Max) : w ≤ watermark w chunks := by
  induction chunks generalizing w with
  | nil => exact le_refl w
  | cons c chunks ih =>
    obtain ⟨hc, hl⟩ := forall_mem_cons.mp hbound
    have hs := nextLine_visitChunk w hc
    have hr := ih (w := (visitChunk w c.1 c.2).nextLine) hl
    have : w ≤ (visitChunk w c.1 c.2).nextLine := by
      rw [hs]
      split <;> omega
    exact this.trans hr

theorem mem_covered_filterMap (l : Nat) : l ∈ covered ((v :: vs).filterMap g) ↔
    (∃ r ∈ g v, r.1 ≤ l ∧ l < r.2) ∨ l ∈ covered (vs.filterMap g) := by
  rw [filterMap_cons]
  cases g v with
  | none => simp
  | some r => simp

theorem mem_covered_chunks : l ∈ covered ((c :: chunks).map chunkSpan) ↔
    (c.1 ≤ l ∧ l < c.1 + c.2) ∨ l ∈ covered (chunks.map chunkSpan) := by
  rw [map_cons, covered_cons]
  exact Iff.rfl

section Walk

variable {chunks : List (Nat × Nat)}

theorem first_le_of_covered (hf : ∀ c ∈ chunks, f ≤ c.1)
    (hl : l ∈ covered (chunks.map chunkSpan)) : f ≤ l := by
  obtain ⟨r, hr, hle, _⟩ := hl
  obtain ⟨c, hc, rfl⟩ := mem_map.mp hr
  exact (hf c hc).trans hle

section

variable (hsorted : chunks.Pairwise fun c d => c.1 ≤ d.1)
    (hbound : ∀ c ∈ chunks, c.1 + c.2 ≤ u64Max)
include hsorted hbound

theorem mem_walk : (l ∈ covered (served w chunks) ↔ w ≤ l ∧ l ∈ covered (chunks.map chunkSpan)) ∧
    (l ∈ covered (skipped w chunks) ↔
      w ≤ l ∧ l < watermark w chunks ∧ l ∉ covered (chunks.map chunkSpan)) := by
  induction chunks generalizing w with
  | nil => simp [served, skipped, walk, watermark]
  | cons c chunks ih =>
    obtain ⟨hf, hr⟩ := pairwise_cons.mp hsorted
    obtain ⟨hc, hl⟩ := forall_mem_cons.mp hbound
    obtain ⟨hsv, hsk⟩ := ih (w := (visitChunk w c.1 c.2).nextLine) hr hl
    have hm := le_watermark (w := (visitChunk w c.1 c.2).nextLine) hl
    have hn := nextLine_visitChunk w hc
    rw [served, skipped, walk, mem_covered_filterMap, mem_covered_filterMap, mem_yielded w hc,
      mem_gap w hc, ← served, ← skipped, hsv, hsk, mem_covered_chunks, watermark]
    by_cases hi : l ∈ covered (chunks.map chunkSpan)
    · have : c.1 ≤ l := first_le_of_covered hf hi
      simp only [hi, and_true, or_true, not_true_eq_false, and_false, or_false, iff_false]
      split at hn <;> omega
    · simp only [hi, or_false, not_false_eq_true, and_true, and_false, true_and]
      split at hn <;> omega

theorem covered_served :
    covered (served w chunks) = {l | w ≤ l ∧ l ∈ covered (chunks.map chunkSpan)} :=
  Set.ext fun _ => (mem_walk hsorted hbound).1

theorem covered_skipped : covered (skipped w chunks) =
    {l | w ≤ l ∧ l < watermark w chunks ∧ l ∉ covered (chunks.map chunkSpan)} :=
  Set.ext fun _ => (mem_walk hsorted hbound).2

end

section

variable (hbound : ∀ c ∈ chunks, c.1 + c.2 ≤ u64Max)
include hbound

theorem start_le_of_mem_served (hr : r ∈ served w chunks) : w ≤ r.1 ∧ r.1 < r.2 := by
  induction chunks generalizing w with
  | nil => simp [served, walk] at hr
  | cons c chunks ih =>
    obtain ⟨hc, hl⟩ := forall_mem_cons.mp hbound
    obtain ⟨v, hv, hr⟩ := mem_filterMap.mp hr
    rcases mem_cons.mp hv with rfl | hv
    · obtain ⟨hle, hlt, _⟩ := yielded_bounds hc hr
      exact ⟨hle, hlt⟩
    · obtain ⟨hle, hlt⟩ := ih hl (mem_filterMap.mpr ⟨v, hv, hr⟩)
      rw [nextLine_visitChunk w hc] at hle
      refine ⟨?_, hlt⟩
      split at hle <;> omega

theorem pairwise_served : (served w chunks).Pairwise fun r t => r.2 ≤ t.1 := by
  induction chunks generalizing w with
  | nil => exact List.Pairwise.nil
  | cons c chunks ih =>
    obtain ⟨hc, hre⟩ := forall_mem_cons.mp hbound
    rw [served, walk, filterMap_cons]
    split
    · exact ih hre
    · rename_i r hr
      refine pairwise_cons.mpr ⟨fun t ht => ?_, ih hre⟩
      rw [(yielded_bounds hc hr).2.2]
      exact (start_le_of_mem_served hre ht).1

theorem served_lt_watermark (hl : l ∈ covered (served w chunks)) : l < watermark w chunks := by
  induction chunks generalizing w with
  | nil => simp [served, walk] at hl
  | cons c chunks ih =>
    obtain ⟨hc, hre⟩ := forall_mem_cons.mp hbound
    rw [served, walk, mem_covered_filterMap] at hl
    rcases hl with ⟨r, hr, _, hlt⟩ | hl
    · rw [(yielded_bounds hc hr).2.2] at hlt
      exact hlt.trans_le (le_watermark hre)
    · exact ih hre hl

end

theorem skipped_eq_nil (h : ∀ v ∈ walk w chunks, v.advance.gapCrossed = false) :
    skipped w chunks = [] := by
  refine filterMap_eq_nil_iff.mpr fun v hv => ?_
  have := h v hv
  cases v with
  | skip n | serve a b n => rfl
  | gapThenServe a b c d n => simp [advance] at this

/-- The walk serves every stored line at or above its start exactly once, and reports
as gaps exactly the lines it passes that no chunk holds. -/
theorem dedup_walk_exact (s : Nat) (chunks : List (Nat × Nat))
    (hsorted : chunks.Pairwise fun c d => c.1 ≤ d.1)
    (hbound : ∀ c ∈ chunks, c.1 ≤ i64Max ∧ c.2 ≤ i64Max) : (∀ r ∈ served s chunks, r.1 < r.2) ∧
      ((served s chunks).Pairwise fun r t => r.2 ≤ t.1) ∧
      covered (served s chunks) = {l | s ≤ l ∧ l ∈ covered (chunks.map chunkSpan)} ∧
      covered (skipped s chunks) =
        {l | s ≤ l ∧ l < watermark s chunks ∧ l ∉ covered (chunks.map chunkSpan)} ∧
      ((∀ v ∈ walk s chunks, v.advance.gapCrossed = false) →
        covered (served s chunks) = Set.Ico s (watermark s chunks)) := by
  have hs : ∀ c ∈ chunks, c.1 + c.2 ≤ u64Max := by
    intro c hc
    obtain ⟨h1, h2⟩ := hbound c hc
    exact (Nat.add_le_add h1 h2).trans i64Max_add_le
  have hsv := covered_served (w := s) hsorted hs
  have hsk := covered_skipped (w := s) hsorted hs
  refine ⟨fun r hr => (start_le_of_mem_served hs hr).2, pairwise_served hs, hsv, hsk, fun hg => ?_⟩
  rw [skipped_eq_nil hg, covered_nil] at hsk
  ext l
  constructor
  · intro hl
    have hlt := served_lt_watermark hs hl
    rw [hsv] at hl
    exact ⟨hl.1, hlt⟩
  · rintro ⟨hle, hlt⟩
    rw [hsv]
    refine ⟨hle, ?_⟩
    by_contra ho
    have : l ∈ (∅ : Set Nat) := hsk ▸ ⟨hle, hlt, ho⟩
    exact this

theorem dedup_walk_exact_overlap :
    served 1 [(0, 3), (0, 3), (2, 2), (4, 0), (6, 2)] = [(1, 3), (3, 4), (6, 8)] ∧
      skipped 1 [(0, 3), (0, 3), (2, 2), (4, 0), (6, 2)] = [(4, 6)] ∧
      covered (served 1 [(0, 3), (0, 3), (2, 2), (4, 0), (6, 2)]) =
        {l | 1 ≤ l ∧ l ∈ covered ([(0, 3), (0, 3), (2, 2), (4, 0), (6, 2)].map chunkSpan)} :=
  ⟨by decide, by decide, (dedup_walk_exact 1 _ (by decide) (by decide)).2.2.1⟩

end Walk

end RioBuild.Log
