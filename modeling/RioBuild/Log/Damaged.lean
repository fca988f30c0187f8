import RioBuild.Lib.Guards
import RioBuild.Log.Completeness
import RioBuild.Log.Serve

namespace RioBuild.Log

open Lib Lib.Word List

def readChunks : List (ChunkRef × ObjectFetch) → LineCursor →
    Except TailError (List (Nat × Line) × LineCursor)
  | [], cursor => .ok ([], cursor)
  | (chunk, fetch) :: rest, cursor => do
    let (lines, cursor) ← readChunk chunk fetch (rest.map Prod.fst) cursor
    let (more, cursor) ← readChunks rest cursor
    return (lines ++ more, cursor)

def ChunkRef.Claims (chunk : ChunkRef) (l : Nat) : Prop :=
  chunk.firstLine ≤ l ∧ l < chunk.firstLine + chunk.lineCount

/-- The row's object is there with any lines, or is not there while the row stands. -/
def ObjectFetch.Settled : ObjectFetch → Prop
  | .object _ | .notFound (some true) => True
  | _ => False

def Holds (row : ChunkRef × ObjectFetch) (p : Nat × Line) : Prop :=
  row.1.Claims p.1 ∧ ∃ object, row.2 = .object object ∧ object[p.1 - row.1.firstLine]? = some p.2

theorem ChunkRef.fits_u64 (chunk : ChunkRef) : chunk.firstLine + chunk.lineCount ≤ u64Max :=
  chunk.fits.trans i64Max_le

variable {remaining : List ChunkRef}

theorem shortObjectPolicy_eq_serveClamped
    (hso : remaining.Pairwise fun a b => a.firstLine ≤ b.firstLine) :
    shortObjectPolicy w missingFrom missingUntil
        (remaining.map fun r => (r.firstLine, r.lineCount)) = .serveClamped ↔
      ∀ l, missingFrom ≤ l → w ≤ l → l < missingUntil → ∃ r ∈ remaining, r.Claims l := by
  have hl {l : Nat} :
      l ∈ covered ((remaining.map fun r => (r.firstLine, r.lineCount)).map chunkSpan) ↔
        ∃ r ∈ remaining, r.Claims l := by
    simp [mem_covered, chunkSpan, ChunkRef.Claims]
  have hf : ∀ r ∈ remaining.map fun r => (r.firstLine, r.lineCount), r.1 + r.2 ≤ u64Max := by
    simpa using fun r _ => r.fits_u64
  unfold shortObjectPolicy
  by_cases hn : missingUntil ≤ max missingFrom w
  · rw [if_pos hn]
    exact iff_of_true rfl fun l hfr hw hu => absurd hu (by omega)
  · rw [if_neg hn]
    have hs := le_coverFrom_iff (pairwise_map.mpr hso) hf (Nat.lt_of_not_le hn)
    simp only [hl, max_le_iff, and_imp] at hs
    split_ifs with hd
    · exact iff_of_true rfl (hs.mp hd)
    · exact iff_of_false nofun fun h => hd (hs.mpr h)

structure Gave (chunk : ChunkRef) (fetch : ObjectFetch) (remaining : List ChunkRef) (w : Nat)
    (out : List (Nat × Line)) (w' n : Nat) : Prop where
  count_le : n ≤ chunk.lineCount
  next_eq : w' = if n = 0 then w else max w (chunk.firstLine + n)
  sorted : out.Pairwise fun p q => p.1 < q.1
  lines : ∀ l, (∃ x, (l, x) ∈ out) ↔ w ≤ l ∧ chunk.firstLine ≤ l ∧ l < chunk.firstLine + n
  held : ∀ p ∈ out, Holds (chunk, fetch) p
  owed : ∀ l, w ≤ l → chunk.firstLine + n ≤ l → chunk.Claims l → ∃ r ∈ remaining, r.Claims l

theorem gave_nothing (h : ∀ l, w ≤ l → chunk.Claims l → ∃ r ∈ remaining, r.Claims l) :
    Gave chunk fetch remaining w [] w 0 where
  count_le := Nat.zero_le _
  next_eq := rfl
  sorted := .nil
  lines l := iff_of_false nofun fun h => by omega
  held := nofun
  owed l hw _ := h l hw

theorem gave_object {c : LineCursor} (hn : n = min chunk.lineCount object.length)
    (ho : ∀ p, p ∈ out ↔ p ∈ numberFrom chunk.firstLine object ∧
      ∃ r ∈ (visitChunk c.nextLine chunk.firstLine n).yielded, r.1 ≤ p.1 ∧ p.1 < r.2)
    (hs : out.Pairwise fun p q => p.1 < q.1)
    (how : ∀ l, c.nextLine ≤ l → chunk.firstLine + n ≤ l → chunk.Claims l →
      ∃ r ∈ remaining, r.Claims l) :
    Gave chunk (.object object) remaining c.nextLine out
      (c.advanceTo (visitChunk c.nextLine chunk.firstLine n).advance).nextLine n := by
  have hc : n ≤ chunk.lineCount := hn.trans_le (min_le_left _ _)
  have hf : chunk.firstLine + n ≤ u64Max :=
    (Nat.add_le_add_left hc _).trans chunk.fits_u64
  simp only [mem_yielded c.nextLine hf] at ho
  refine ⟨hc, ?_, hs, fun l => ?_, fun p hp => ?_, how⟩
  · change max c.nextLine (visitChunk c.nextLine chunk.firstLine n).nextLine = _
    rw [nextLine_visitChunk c.nextLine hf]
    split <;> omega
  · simp only [ho, mem_numberFrom]
    constructor
    · rintro ⟨x, -, hi⟩
      exact hi
    · intro hi
      have hlt : l - chunk.firstLine < object.length := by omega
      exact ⟨object[l - chunk.firstLine], ⟨hi.2.1, getElem?_eq_getElem hlt⟩, hi⟩
  · obtain ⟨hm, -, hfs, hlt⟩ := (ho p).mp hp
    exact ⟨⟨hfs, hlt.trans_le (Nat.add_le_add_left hc _)⟩, object, rfl, (mem_numberFrom.mp hm).2⟩

theorem gave_of_readChunk {fetch : ObjectFetch}
    (hf : fetch.Settled) (hs : remaining.Pairwise fun a b => a.firstLine ≤ b.firstLine)
    (h : readChunk chunk fetch remaining c = .ok (out, c')) :
    ∃ n, Gave chunk fetch remaining c.nextLine out c'.nextLine n := by
  unfold readChunk at h
  split at h
  · rename_i hem
    cases h
    refine ⟨0, gave_nothing fun l hw hc => ?_⟩
    rcases visitChunk_exact c.nextLine chunk.fits_u64 with ⟨-, hsk⟩ | ⟨he, -⟩ | ⟨he, -⟩
    · obtain ⟨hfs, hlt⟩ := hc
      omega
    all_goals
      rw [he] at hem
      cases hem
  split at h
  · cases h
  cases fetch with
  | failed | undecodable => cases hf
  | notFound stands =>
    obtain _ | _ | _ := stands
    · cases hf
    · cases hf
    · rw [saturatingAdd_eq chunk.fits_u64] at h
      dsimp only at h
      split at h
      · rename_i hp
        cases h
        have hcv := (shortObjectPolicy_eq_serveClamped hs).mp hp
        exact ⟨0, gave_nothing fun l hw hc => hcv l hc.1 hw hc.2⟩
      · cases h
  | object object =>
    dsimp only at h
    split at h
    · cases h
    rename_i hr
    -- A short object that is not refused leaves its hole to the rows to come.
    have ho : ∀ l, c.nextLine ≤ l →
        chunk.firstLine + min chunk.lineCount object.length ≤ l → chunk.Claims l →
        ∃ r ∈ remaining, r.Claims l := by
      intro l hw hm hc
      obtain ⟨hfs, hlt⟩ := hc
      have hsh : object.length < chunk.lineCount := by omega
      have hob := (Nat.add_le_add_left hsh.le _).trans chunk.fits_u64
      simp only [visitObject, if_pos hsh, saturatingAdd_eq hob,
        saturatingAdd_eq chunk.fits_u64] at hr
      split at hr
      · rename_i hp
        exact (shortObjectPolicy_eq_serveClamped hs).mp hp l (by omega) hw hlt
      · cases hr
    refine ⟨min chunk.lineCount object.length, ?_⟩
    simp only [visitObject] at h
    split at h
    · rename_i hy
      cases h
      exact gave_object rfl (by simp [hy]) .nil ho
    · rename_i hy
      cases h
      refine gave_object rfl (by simp [hy]) ?_ ho
      exact (pairwise_numberFrom _ _).filter _

/-- The walk is past the rows `done`: what they claim below the cursor has been served, and what
they claim from there on is claimed by the rows to come. -/
structure Walked (s : Nat) (done rest : List (ChunkRef × ObjectFetch)) (lines : List (Nat × Line))
    (w : Nat) : Prop where
  start_le : s ≤ w
  sorted : lines.Pairwise fun p q => p.1 < q.1
  held : ∀ p ∈ lines, s ≤ p.1 ∧ p.1 < w ∧ ∃ row ∈ done, Holds row p
  served : ∀ row ∈ done ++ rest, ∀ l, row.1.Claims l → s ≤ l → l < w → ∃ x, (l, x) ∈ lines
  owed : ∀ row ∈ done, ∀ l, row.1.Claims l → w ≤ l → ∃ r ∈ rest, r.1.Claims l

theorem Walked.start (s : Nat) (rows : List (ChunkRef × ObjectFetch)) : Walked s [] rows [] s where
  start_le := le_rfl
  sorted := .nil
  held := nofun
  served _ _ _ _ hs hlt := absurd hlt (not_lt.mpr hs)
  owed := nofun

theorem Walked.step (h : Walked s done (row :: rest) lines w)
    (hso : (done ++ row :: rest).Pairwise fun a b => a.1.firstLine ≤ b.1.firstLine)
    (hg : Gave row.1 row.2 (rest.map Prod.fst) w out w' n) :
    Walked s (done ++ [row]) rest (lines ++ out) w' := by
  have hre {l : Nat} : (∃ r ∈ rest.map Prod.fst, r.Claims l) ↔ ∃ r ∈ rest, r.1.Claims l := by
    simp
  have hle : w ≤ w' := by
    rw [hg.next_eq]
    split <;> omega
  -- A claimed line that the cursor passes is one of this row: it is not below the row, where
  -- nothing to come could claim it.
  have hpd {r : ChunkRef × ObjectFetch} {l : Nat} (hr : r ∈ done ++ row :: rest)
      (hc : r.1.Claims l) (hw : w ≤ l) (hlt : l < w') :
      row.1.firstLine ≤ l ∧ l < row.1.firstLine + n := by
    have hn := hg.next_eq
    split at hn
    · omega
    refine ⟨?_, by omega⟩
    by_contra hb
    have hla {r : ChunkRef × ObjectFetch} (hr : r ∈ row :: rest) : ¬r.1.Claims l := by
      have hf : row.1.firstLine ≤ r.1.firstLine := by
        rcases mem_cons.mp hr with rfl | hr
        · exact le_rfl
        · exact (pairwise_cons.mp (pairwise_append.mp hso).2.1).1 r hr
      exact fun hc => hb (hf.trans hc.1)
    rcases mem_append.mp hr with hr | hr
    · obtain ⟨q, hq, hc⟩ := h.owed r hr l hc hw
      exact hla hq hc
    · exact hla hr hc
  refine ⟨h.start_le.trans hle, ?_, ?_, ?_, ?_⟩
  · refine pairwise_append.mpr ⟨h.sorted, hg.sorted, fun p hp q hq => ?_⟩
    exact (h.held p hp).2.1.trans_le ((hg.lines q.1).mp ⟨q.2, hq⟩).1
  · intro p hp
    rcases mem_append.mp hp with hp | hp
    · obtain ⟨hs, hlt, r, hr, hh⟩ := h.held p hp
      exact ⟨hs, hlt.trans_le hle, r, mem_append_left _ hr, hh⟩
    · obtain ⟨hw, hf, hlt⟩ := (hg.lines p.1).mp ⟨p.2, hp⟩
      refine ⟨h.start_le.trans hw, ?_, row, by simp, hg.held p hp⟩
      rw [hg.next_eq]
      split <;> omega
  · intro r hr l hc hs hlt
    rw [append_assoc] at hr
    by_cases hw : l < w
    · obtain ⟨x, hx⟩ := h.served r hr l hc hs hw
      exact ⟨x, mem_append_left _ hx⟩
    · obtain ⟨hf, he⟩ := hpd hr hc (Nat.le_of_not_lt hw) hlt
      obtain ⟨x, hx⟩ := (hg.lines l).mpr ⟨Nat.le_of_not_lt hw, hf, he⟩
      exact ⟨x, mem_append_right _ hx⟩
  · have hrw {l : Nat} (hc : row.1.Claims l) (hl : w' ≤ l) : ∃ r ∈ rest, r.1.Claims l := by
      refine hre.mp (hg.owed l (hle.trans hl) ?_ hc)
      have hn := hg.next_eq
      obtain ⟨hf, -⟩ := hc
      split at hn <;> omega
    intro r hr l hc hl
    rcases mem_append.mp hr with hr | hr
    · obtain ⟨q, hq, hqc⟩ := h.owed r hr l hc (hle.trans hl)
      rcases mem_cons.mp hq with rfl | hq
      · exact hrw hqc hl
      · exact ⟨q, hq, hqc⟩
    · rw [mem_singleton.mp hr] at hc
      exact hrw hc hl

theorem Walked.run {c c' : LineCursor} (h : Walked s done rest lines c.nextLine)
    (hs : (done ++ rest).Pairwise fun a b => a.1.firstLine ≤ b.1.firstLine)
    (hf : ∀ row ∈ rest, row.2.Settled) (hr : readChunks rest c = .ok (out, c')) :
    Walked s (done ++ rest) [] (lines ++ out) c'.nextLine := by
  induction rest generalizing done lines c out with
  | nil =>
    cases hr
    rwa [append_nil, append_nil]
  | cons row rest ih =>
    obtain ⟨hrw, hf⟩ := forall_mem_cons.mp hf
    simp only [readChunks, Guards.bind_eq_ok] at hr
    obtain ⟨⟨given, mid⟩, hrd, ⟨more, last⟩, hm, heq⟩ := hr
    cases heq
    have hl : (rest.map Prod.fst).Pairwise fun a b => a.firstLine ≤ b.firstLine :=
      pairwise_map.mpr (pairwise_cons.mp (pairwise_append.mp hs).2.1).2
    obtain ⟨n, hg⟩ := gave_of_readChunk hrw hl hrd
    have hst := h.step hs hg
    rw [append_cons] at hs
    rw [append_cons, ← append_assoc]
    exact ih hst hs hf hm

/-- A walk that is not refused serves the claimed lines from `s` on, each once and in order, from an
object of a row that claims it; and a hole is left for later if and only if the rows to come claim
what is new in it. -/
theorem readChunks_exact (s : Nat) (rows : List (ChunkRef × ObjectFetch))
    (hsorted : rows.Pairwise fun a b => a.1.firstLine ≤ b.1.firstLine)
    (hfetch : ∀ row ∈ rows, row.2.Settled) :
    (∀ lines c, readChunks rows { nextLine := s } = .ok (lines, c) →
      lines.Pairwise (fun p q => p.1 < q.1) ∧
      (∀ l, (∃ x, (l, x) ∈ lines) ↔ s ≤ l ∧ ∃ row ∈ rows, row.1.Claims l) ∧
      ∀ p ∈ lines, ∃ row ∈ rows, Holds row p) ∧
    ∀ done row rest, rows = done ++ row :: rest → ∀ w missingFrom missingUntil,
      shortObjectPolicy w missingFrom missingUntil
          ((rest.map Prod.fst).map fun r => (r.firstLine, r.lineCount)) = .serveClamped ↔
        ∀ l, missingFrom ≤ l → w ≤ l → l < missingUntil → ∃ r ∈ rest, r.1.Claims l := by
  refine ⟨fun lines c hru => ?_, fun done row rest heq w missingFrom missingUntil => ?_⟩
  · have h : Walked s ([] ++ rows) [] ([] ++ lines) c.nextLine :=
      (Walked.start s rows).run hsorted hfetch hru
    refine ⟨h.sorted, fun l => ⟨?_, ?_⟩, fun p hp => (h.held p hp).2.2⟩
    · rintro ⟨x, hx⟩
      obtain ⟨hs, -, row, hrw, hh⟩ := h.held _ hx
      exact ⟨hs, row, hrw, hh.1⟩
    · rintro ⟨hs, row, hrw, hc⟩
      refine h.served row (mem_append_left _ hrw) l hc hs (Nat.lt_of_not_le fun hle => ?_)
      obtain ⟨r, hr, -⟩ := h.owed row hrw l hc hle
      cases hr
  · subst heq
    have hl : (rest.map Prod.fst).Pairwise fun a b => a.firstLine ≤ b.firstLine :=
      pairwise_map.mpr (pairwise_cons.mp (pairwise_append.mp hsorted).2.1).2
    rw [shortObjectPolicy_eq_serveClamped hl]
    simp

def damaged : List (ChunkRef × ObjectFetch) :=
  [(⟨"a", 0, 3, by decide⟩, .object [[1]]), (⟨"b", 1, 2, by decide⟩, .object [[2], [3], [4]])]

theorem readChunks_exact_damaged :
    readChunks damaged { nextLine := 0 } = .ok ([(0, [1]), (1, [2]), (2, [3])], ⟨3, false⟩) ∧
      ∀ l, (∃ x : Line, (l, x) ∈ [(0, [1]), (1, [2]), (2, [3])]) ↔
        0 ≤ l ∧ ∃ row ∈ damaged, row.1.Claims l := by
  have hr : readChunks damaged { nextLine := 0 } =
      .ok ([(0, [1]), (1, [2]), (2, [3])], ⟨3, false⟩) := by
    decide +kernel
  have hs : ∀ row ∈ damaged, row.2.Settled := by
    simp [damaged, ObjectFetch.Settled]
  exact ⟨hr, ((readChunks_exact 0 damaged (by decide) hs).1 _ _ hr).2.1⟩

end RioBuild.Log
