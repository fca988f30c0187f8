import RioBuild.Log.Serve

namespace RioBuild.Log

open Lib Lib.Word List

structure StoredChunk where
  sessionId : Nat
  chunkSeq : UInt32
  s3Key : String
  firstLine : Nat
  lines : List Line
  fits : firstLine + lines.length ≤ i64Max
  deriving DecidableEq

namespace StoredChunk

def stop (row : StoredChunk) : Nat := row.firstLine + row.lines.length

def read (row : StoredChunk) : ChunkRef × ObjectFetch :=
  (⟨row.s3Key, row.firstLine, row.lines.length, row.fits⟩, .object row.lines)

end StoredChunk

def Agrees (log : List Line) (first : Nat) (lines : List Line) : Prop :=
  ∀ p ∈ numberFrom first lines, p ∈ numberFrom 0 log

theorem Agrees.le (h : Agrees log first lines) (hne : lines ≠ []) :
    first + lines.length ≤ log.length := by
  have hp : 0 < lines.length := length_pos_iff.mpr hne
  have hl : (first + (lines.length - 1), lines[lines.length - 1]) ∈ numberFrom first lines :=
    mem_numberFrom.mpr ⟨by omega, by simp⟩
  have := (bounds_of_mem_numberFrom (h _ hl)).2
  omega

theorem Agrees.append (h : Agrees log first lines) (more : List Line) :
    Agrees (log ++ more) first lines := by
  intro p hp
  rw [numberFrom_append]
  exact mem_append_left _ (h p hp)

structure Exact (log : List Line) (c : LineCursor) (lines : List (Nat × Line)) (c' : LineCursor) :
    Prop where
  lines_eq : lines = window log c.nextLine c'.nextLine
  forward : c.nextLine ≤ c'.nextLine
  within : c'.nextLine ≤ max c.nextLine log.length
  gap_eq : c'.gapCrossed = c.gapCrossed

namespace Exact

variable {log : List Line} {lines : List Line}

theorem refl (c : LineCursor) : Exact log c [] c :=
  ⟨(window_eq_nil le_rfl).symm, le_rfl, le_max_left _ _, rfl⟩

theorem trans (h : Exact log c l c') (h' : Exact log c' m c'') : Exact log c (l ++ m) c'' where
  lines_eq := by rw [h.lines_eq, h'.lines_eq, window_append_window h.forward h'.forward]
  forward := h.forward.trans h'.forward
  within := h'.within.trans (max_le h.within (le_max_right _ _))
  gap_eq := h'.gap_eq.trans h.gap_eq

theorem isPath : IsPath (Exact log) := ⟨refl, trans⟩

theorem visit (ha : Agrees log first lines) (hf : log.length ≤ u64Max)
    (hg : (visitChunk c.nextLine first lines.length).gap = none)
    (hy : (visitChunk c.nextLine first lines.length).yielded = some (yieldFrom, yieldUntil)) :
    Exact log c (numberFrom yieldFrom
        ((lines.drop (yieldFrom - first)).take (yieldUntil - yieldFrom)))
        (c.advanceTo (visitChunk c.nextLine first lines.length).advance) ∧
      (c.advanceTo (visitChunk c.nextLine first lines.length).advance).nextLine =
        first + lines.length := by
  rcases visitChunk_cases c.nextLine first lines.length with ⟨he, _⟩ | ⟨he, hle, hlt⟩ | ⟨he, hlt, _⟩
  · simp [he, ChunkVisit.yielded] at hy
  · have hne : lines ≠ [] := by
      rintro rfl
      have := saturatingAdd_le first ([] : List Line).length
      simp only [length_nil] at this hlt
      omega
    have hl := ha.le hne
    have hs := saturatingAdd_eq (hl.trans hf)
    simp only [he] at hy
    obtain ⟨rfl, rfl⟩ := hy
    have hn : c.advanceTo (visitChunk c.nextLine first lines.length).advance =
        ⟨first + lines.length, c.gapCrossed⟩ := by
      simp only [he, LineCursor.advanceTo, ChunkVisit.advance, ChunkVisit.nextLine,
        Bool.or_false, LineCursor.mk.injEq, and_true]
      omega
    rw [hn]
    rw [hs] at hlt
    refine ⟨⟨?_, hlt.le, hl.trans (le_max_right _ _), rfl⟩, rfl⟩
    have hd : numberFrom c.nextLine (lines.drop (c.nextLine - first)) =
        window log c.nextLine (first + lines.length) := by
      have hsu : ∀ p ∈ numberFrom c.nextLine (lines.drop (c.nextLine - first)),
          p ∈ numberFrom 0 log := by
        intro p hp
        refine ha p (mem_of_mem_drop (i := c.nextLine - first) ?_)
        rwa [drop_numberFrom, Nat.add_sub_cancel' hle]
      rw [numberFrom_eq_window hsu, length_drop]
      congr 1
      omega
    rw [take_of_length_le (by rw [length_drop]; omega)]
    exact hd
  · simp [he, ChunkVisit.gap] at hg

theorem gap_eq_none_of_le (h : first ≤ w) : (visitChunk w first n).gap = none := by
  rcases visitChunk_cases w first n with ⟨he, _⟩ | ⟨he, _⟩ | ⟨he, hlt, _⟩
  · simp [he, ChunkVisit.gap]
  · simp [he, ChunkVisit.gap]
  · omega

theorem readChunk {row : StoredChunk} (remaining : List ChunkRef)
    (ha : Agrees log row.firstLine row.lines) (hf : log.length ≤ u64Max)
    (hb : row.lines.length ≤ maxChunkLinesAbs) (hle : row.lines ≠ [] → row.firstLine ≤ c.nextLine) :
    ∃ out c', readChunk row.read.1 row.read.2 remaining c = .ok (out, c') ∧ Exact log c out c' ∧
      (row.lines ≠ [] → row.stop ≤ c'.nextLine) := by
  unfold RioBuild.Log.readChunk
  simp only [StoredChunk.read]
  rcases visitChunk_cases c.nextLine row.firstLine row.lines.length with ⟨he, hs⟩ |
    ⟨he, hle', hlt⟩ | ⟨he, hlt, hen⟩
  · refine ⟨[], c, by simp [he, ChunkVisit.isEmpty], refl c, fun hne => ?_⟩
    have hl := ha.le hne
    have hp : 0 < row.lines.length := length_pos_iff.mpr hne
    rw [saturatingAdd_eq (hl.trans hf)] at hs
    exact hs.resolve_left hp.ne'
  · have hg := gap_eq_none_of_le (n := row.lines.length) hle'
    obtain ⟨hex, hn⟩ := visit ha hf hg
      (by rw [he]; rfl : _ = some (c.nextLine, saturatingAdd row.firstLine row.lines.length))
    refine ⟨_, _, ?_, hex, fun _ => hn.ge⟩
    rw [← filter_numberFrom _ _ hle']
    simp [he, ChunkVisit.isEmpty, ChunkVisit.yielded, visitObject, not_lt.mpr hb]
  · exfalso
    by_cases hne : row.lines = []
    · simp [hne, visitChunk] at he
    · have := hle hne
      omega

end Exact

structure StoreView where
  log : List Line
  /-- The lines the manifest held before the session opened. -/
  base : Nat
  /-- The lines the manifest is sure to hold. -/
  durable : Nat
  alive : Bool

namespace StoreView

variable {v : StoreView}

structure Valid (v : StoreView) : Prop where
  base_le : v.base ≤ v.durable
  durable_le : v.durable ≤ v.log.length
  fits : v.log.length ≤ i64Max

theorem Valid.fits_u64 (h : v.Valid) : v.log.length ≤ u64Max := h.fits.trans i64Max_le

/-- The session ended with lines that no chunk holds. -/
def Lost (v : StoreView) : Prop := v.alive = false ∧ v.durable < v.log.length

structure Extends (v v' : StoreView) : Prop where
  base_eq : v'.base = v.base
  durable_le : v.durable ≤ v'.durable
  log_eq : ∃ more, v'.log = v.log ++ more
  ended : v.alive = false → v' = v

/-- A manifest read from a line: intact chunks in order that leave nothing durable out. -/
structure Manifest (v : StoreView) (since : Nat) (rows : List StoredChunk) : Prop where
  agrees : ∀ row ∈ rows, Agrees v.log row.firstLine row.lines
  bounded : ∀ row ∈ rows, row.lines.length ≤ maxChunkLinesAbs
  starts : ∀ row ∈ rows, row.lines ≠ [] → row.firstLine ≤ v.durable
  sorted : rows.Pairwise fun a b => a.firstLine ≤ b.firstLine
  covers : ∀ n, since ≤ n → n < v.durable → ∃ row ∈ rows, row.firstLine ≤ n ∧ n < row.stop

/-- A clone of the lines in memory, made when `stop` lines had been accepted. -/
def Snapshot (v : StoreView) (since : Nat) (lines : List (Nat × Line)) (stop : Nat) : Prop :=
  stop ≤ v.log.length ∧ ∃ c ≤ v.durable, lines = window v.log (max c since) stop

/-- A live batch: accepted lines, with a floor at its start unless it is the first of the
session. -/
structure Fan (v : StoreView) (fan : FanBatch) : Prop where
  nonempty : fan.batch.lines ≠ []
  agrees : Agrees v.log fan.batch.firstLineNumber fan.batch.lines
  floor : fan.coverageFloor = fan.batch.firstLineNumber ∨ fan.batch.firstLineNumber ≤ v.base

theorem Fan.mono (h : v.Fan fan) (he : v.Extends v') : v'.Fan fan := by
  obtain ⟨more, hl⟩ := he.log_eq
  refine ⟨h.nonempty, hl ▸ h.agrees.append more, ?_⟩
  rw [he.base_eq]
  exact h.floor

theorem Snapshot.mono (h : v.Snapshot since lines stop) (he : v.Extends v') :
    v'.Snapshot since lines stop := by
  obtain ⟨hs, c, hc, rfl⟩ := h
  obtain ⟨more, hl⟩ := he.log_eq
  refine ⟨?_, c, hc.trans he.durable_le, ?_⟩
  · rw [hl, length_append]
    omega
  · rw [hl, window_append more (.inl hs)]

end StoreView

namespace Tail

variable {v : StoreView} {since : Nat} {t : Tail}

theorem serves_manifest (hv : v.Valid) (h : v.Manifest t.cursor.nextLine rows) :
    Serves (Exact v.log) (fun _ => False) t (t.serveManifest (rows.map StoredChunk.read)) ∧
      ((t.serveManifest (rows.map StoredChunk.read)).2 = none →
        v.durable ≤ (t.serveManifest (rows.map StoredChunk.read)).1.cursor.nextLine) := by
  induction rows generalizing t with
  | nil =>
    refine ⟨.stay Exact.isPath t (by simp), fun _ => ?_⟩
    by_contra hlt
    obtain ⟨row, hrw, _⟩ := h.covers t.cursor.nextLine le_rfl (not_le.mp hlt)
    cases hrw
  | cons row rows ih =>
    obtain ⟨hf, hso⟩ := pairwise_cons.mp h.sorted
    -- the line at the cursor is durable and only an earlier chunk could hold it
    have hle : row.lines ≠ [] → row.firstLine ≤ t.cursor.nextLine := by
      intro hne
      by_contra hlt
      have hst := h.starts row mem_cons_self hne
      obtain ⟨row', hrw', hle', _⟩ := h.covers t.cursor.nextLine le_rfl (by omega)
      rcases mem_cons.mp hrw' with rfl | hrw'
      · omega
      · have := hf row' hrw'
        omega
    obtain ⟨out, c, hrd, he, hsto⟩ := Exact.readChunk
      ((rows.map StoredChunk.read).map Prod.fst) (h.agrees row mem_cons_self) hv.fits_u64
      (h.bounded row mem_cons_self) hle
    rcases Serves.manifest_cons hrd he with ⟨u, e, heq, hs⟩ | ⟨u, heq, hc, hs⟩
    · exact heq ▸ ⟨hs, fun hno => by cases hno⟩
    · have hre : v.Manifest u.cursor.nextLine rows := by
        refine ⟨fun r hr => h.agrees r (mem_cons_of_mem _ hr),
          fun r hr => h.bounded r (mem_cons_of_mem _ hr),
          fun r hr => h.starts r (mem_cons_of_mem _ hr), hso, fun n hn hlt => ?_⟩
        have hfo := he.forward
        rw [hc] at hn
        obtain ⟨r, hr, hfr, hu⟩ := h.covers n (by omega) hlt
        rcases mem_cons.mp hr with rfl | hr
        · have hne : r.lines ≠ [] := by
            intro hni
            rw [StoredChunk.stop, hni] at hu
            simp only [length_nil] at hu
            omega
          have := hsto hne
          omega
        · exact ⟨r, hr, hfr, hu⟩
      obtain ⟨hs', hd⟩ := ih hre
      exact heq ▸ ⟨hs.trans Exact.isPath hs', hd⟩

theorem serves_visit (hv : v.Valid) {lines : List Line} (ha : Agrees v.log first lines)
    (hg : (visitChunk t.cursor.nextLine first lines.length).gap = none) :
    let r := t.serveVisit first lines (visitChunk t.cursor.nextLine first lines.length)
    Serves (Exact v.log) (fun _ => False) t r ∧
      (r.2 = none → lines ≠ [] → first + lines.length ≤ r.1.cursor.nextLine) := by
  intro r
  refine ⟨.visit Exact.isPath fun _ _ hy => (Exact.visit ha hv.fits_u64 hg hy).1, ?_⟩
  intro hn hne
  have hl := ha.le hne
  have hp : 0 < lines.length := length_pos_iff.mpr hne
  rcases visitChunk_cases t.cursor.nextLine first lines.length with ⟨he, hs⟩ |
    ⟨he, hle, hlt⟩ | ⟨he, _⟩
  · rw [saturatingAdd_eq (hl.trans hv.fits_u64)] at hs
    simp only [r, he, serveVisit, ChunkVisit.yielded]
    omega
  · have hy : (visitChunk t.cursor.nextLine first lines.length).yielded =
        some (t.cursor.nextLine, saturatingAdd first lines.length) := by rw [he]; rfl
    rw [cursor_serveVisit hy hn]
    exact (Exact.visit ha hv.fits_u64 hg hy).2.ge
  · simp [he, ChunkVisit.gap] at hg

theorem runsFrom_numberFrom (first : Nat) (out lines : List Line) :
    runsFrom first out (numberFrom (first + out.length) lines) = [(first, out ++ lines)] := by
  induction lines generalizing out with
  | nil => simp [runsFrom]
  | cons line lines ih =>
    have := ih (out ++ [line])
    rw [length_append, length_singleton, ← add_assoc] at this
    simp [runsFrom, this]

theorem viewRuns_numberFrom {lines : List Line} (hne : lines ≠ []) :
    viewRuns (numberFrom first lines) = [(first, lines)] := by
  cases lines with
  | nil => exact absurd rfl hne
  | cons line lines => exact runsFrom_numberFrom first [line] lines

theorem serves_snapshot (hv : v.Valid) {lines : List (Nat × Line)}
    (h : v.Snapshot since lines stop) (hd : v.durable ≤ t.cursor.nextLine)
    (hsi : since ≤ t.cursor.nextLine) :
    Serves (Exact v.log) (fun _ => False) t (t.serveViewRuns lines) ∧
      ((t.serveViewRuns lines).2 = none → stop ≤ (t.serveViewRuns lines).1.cursor.nextLine) := by
  obtain ⟨hst, c, hc, rfl⟩ := h
  have hle : max c since ≤ t.cursor.nextLine := by omega
  rw [serveViewRuns, window]
  by_cases hn : (v.log.drop (max c since)).take (stop - max c since) = []
  · have hem : window v.log (max c since) stop = [] := by rw [window, hn, numberFrom_nil]
    have := le_of_window_eq_nil hst hem
    rw [hn]
    refine ⟨.stay Exact.isPath t (by simp), fun _ => ?_⟩
    change stop ≤ t.cursor.nextLine
    omega
  · have ha : Agrees v.log (max c since)
        ((v.log.drop (max c since)).take (stop - max c since)) := fun p hp =>
      mem_of_mem_window hp
    obtain ⟨hs, he⟩ := serves_visit hv ha (Exact.gap_eq_none_of_le hle)
    rw [viewRuns_numberFrom hn, serveRuns]
    have hl : max c since + ((v.log.drop (max c since)).take (stop - max c since)).length =
        max (max c since) stop := by
      rw [length_take, length_drop]
      omega
    cases hr : t.serveVisit _ _ (visitChunk t.cursor.nextLine (max c since) _) with
    | mk u err =>
      rw [hr] at hs he
      cases err with
      | none =>
        have he := he rfl hn
        refine ⟨hs, fun _ => ?_⟩
        rw [hl] at he
        exact (le_max_right _ _).trans he
      | some e => exact ⟨hs, fun hno => by cases hno⟩

structure Delivered (v : StoreView) (since : Nat) (t : Tail) : Prop where
  lines_eq : t.lines = window v.log since t.cursor.nextLine
  since_le : since ≤ t.cursor.nextLine
  within : t.cursor.nextLine ≤ max since v.log.length

def Stopped (v : StoreView) (since : Nat) (t : Tail) : Prop :=
  ∃ stop, t.lines = window v.log since stop ∧ since ≤ stop ∧ stop ≤ max since v.log.length

structure Left (v : StoreView) (since : Nat) (t : Tail) : Prop where
  phase : t.phase = .closed (some .cancelled)
  room : t.room = 0
  stopped : Stopped v since t

section

variable (h : Delivered v since t)
include h

theorem Delivered.stopped : Stopped v since t :=
  ⟨t.cursor.nextLine, h.lines_eq, h.since_le, h.within⟩

theorem Delivered.congr (hl : u.lines = t.lines) (hc : u.cursor = t.cursor) : Delivered v since u :=
  ⟨by rw [hl, hc, h.lines_eq], hc ▸ h.since_le, hc ▸ h.within⟩

theorem Delivered.mono (he : v.Extends v') : Delivered v' since t := by
  obtain ⟨more, hl⟩ := he.log_eq
  have hw := h.within
  refine ⟨?_, h.since_le, ?_⟩
  · rw [hl, window_append more (by omega)]
    exact h.lines_eq
  · rw [hl, length_append]
    omega

end

theorem Stopped.mono (h : Stopped v since t) (he : v.Extends v') : Stopped v' since t := by
  obtain ⟨stop, hli, hs, hst⟩ := h
  obtain ⟨more, hl⟩ := he.log_eq
  refine ⟨stop, ?_, hs, ?_⟩
  · rw [hl, window_append more (by omega)]
    exact hli
  · rw [hl, length_append]
    omega

theorem Delivered.andThen (h : Delivered v since t)
    (hs : Serves (Exact v.log) (fun _ => False) t r) (next : Tail → Tail) :
    (∃ u, r = (u, none) ∧ Tail.andThen r next = next u ∧ Delivered v since u ∧
        t.cursor.nextLine ≤ u.cursor.nextLine ∧ u.follow = t.follow ∧
        u.subscription = t.subscription) ∨
      Left v since (Tail.andThen r next) := by
  obtain ⟨u, err⟩ := r
  obtain ⟨l, c, he, delivered, hp, hl, ho⟩ := hs.moved
  simp only at hl ho
  have hsi := h.since_le
  have hw := h.within
  have hf := he.forward
  have hb := he.within
  cases err with
  | none =>
    obtain ⟨rfl, rfl⟩ := ho rfl
    refine .inl ⟨u, rfl, rfl, ⟨?_, by omega, by omega⟩, hf, hs.follow, hs.subscription⟩
    rw [hl, h.lines_eq, he.lines_eq, window_append_window hsi hf]
  | some e =>
    right
    obtain ⟨rfl, hr⟩ := (hs.failed e rfl).resolve_left id
    rw [he.lines_eq] at hp
    obtain ⟨stop, hst, rfl, hen⟩ := window_of_prefix hp
    refine ⟨rfl, hr, stop, ?_, by omega, by omega⟩
    change u.lines = _
    rw [hl, h.lines_eq, window_append_window hsi hst]

def Follows (v : StoreView) (since : Nat) (t : Tail) : Prop :=
  match t.phase with
  | .history => Delivered v since t ∧ t.follow = true ∧
      ∃ lines stop, t.subscription = some lines ∧ v.Snapshot since lines stop
  | .live => Delivered v since t ∧ v.base ≤ t.cursor.nextLine
  | .awaitSnapshot pending => Delivered v since t ∧ v.base ≤ t.cursor.nextLine ∧
      ∀ fan ∈ pending, v.Fan fan
  | .backfill lines pending => Delivered v since t ∧ v.base ≤ t.cursor.nextLine ∧
      ∃ stop, v.Snapshot t.cursor.nextLine lines stop ∧ ∀ fan ∈ pending, v.Fan fan ∧
        (v.Lost ∨ fan.batch.firstLineNumber + fan.batch.lines.length ≤ stop)
  | .catchUp => Delivered v since t ∧ v.alive = false
  | .claim => Delivered v since t ∧ v.alive = false ∧ (v.Lost ∨ v.log.length ≤ t.cursor.nextLine)
  | .closed _ => Stopped v since t

def Owed (v : StoreView) (t : Tail) : TailEvent → Prop
  | .manifest (some rows) => ∃ chunks, rows = chunks.map StoredChunk.read ∧
      v.Manifest t.cursor.nextLine chunks
  | .batch fan => v.Fan fan
  | .ended => v.alive = false
  | .snapshot lines => ∃ stop, v.Snapshot t.cursor.nextLine lines stop ∧
      (v.Lost ∨ stop = v.log.length)
  | _ => True

namespace Follows

theorem mono (h : Follows v since t) (he : v.Extends v') : Follows v' since t := by
  have hb := he.base_eq
  unfold Follows at h ⊢
  split at h
  · obtain ⟨hd, hfo, lines, stop, hsu, hs⟩ := h
    exact ⟨hd.mono he, hfo, lines, stop, hsu, hs.mono he⟩
  · exact ⟨h.1.mono he, hb ▸ h.2⟩
  · exact ⟨h.1.mono he, hb ▸ h.2.1, fun fan hf => (h.2.2 fan hf).mono he⟩
  · obtain ⟨hd, hle, stop, hs, hp⟩ := h
    refine ⟨hd.mono he, hb ▸ hle, stop, hs.mono he, fun fan hf => ?_⟩
    obtain ⟨ho, hl⟩ := hp fan hf
    refine ⟨ho.mono he, hl.imp_left fun hl => ?_⟩
    rw [he.ended hl.1]
    exact hl
  · exact he.ended h.2 ▸ h
  · exact he.ended h.2.1 ▸ h
  · exact h.mono he

theorem stopped (h : Follows v since t) : Stopped v since t := by
  unfold Follows at h
  split at h
  · exact h.1.stopped
  · exact h.1.stopped
  · exact h.1.stopped
  · exact h.1.stopped
  · exact h.1.stopped
  · exact h.1.stopped
  · exact h

theorem of_left (h : Left v since t) : Follows v since t := by
  simp only [Follows, h.phase]
  exact h.stopped

theorem close (h : Follows v since t) (e : Option TailError) :
    Follows v since { t with phase := .closed e } :=
  h.stopped

end Follows

theorem gap_visitBatch (hf : v.Fan fan) (hb : v.base ≤ t.cursor.nextLine)
    (h : isDropped (t.visitBatch fan) = false) : (t.visitBatch fan).visit.gap = none := by
  unfold visitBatch visitFanoutBatch isDropped at h
  simp only [visitBatch, visitFanoutBatch]
  rcases visitChunk_cases t.cursor.nextLine fan.batch.firstLineNumber fan.batch.lines.length with
    ⟨he, _⟩ | ⟨he, _⟩ | ⟨he, hlt, _⟩
  · simp [he, ChunkVisit.gap]
  · simp [he, ChunkVisit.gap]
  · have hfl := hf.floor
    rw [he] at h
    simp only [if_pos (show t.cursor.nextLine < fan.coverageFloor by omega)] at h
    cases h

theorem isDropped_of_le
    (h : fan.batch.firstLineNumber + fan.batch.lines.length ≤ t.cursor.nextLine) :
    isDropped (t.visitBatch fan) = false := by
  have hg := Exact.gap_eq_none_of_le (n := fan.batch.lines.length) ((Nat.le_add_right _ _).trans h)
  unfold visitBatch visitFanoutBatch isDropped
  rcases visitChunk_cases t.cursor.nextLine fan.batch.firstLineNumber fan.batch.lines.length with
    ⟨he, _⟩ | ⟨he, _⟩ | ⟨he, _⟩
  · simp [he]
  · simp [he]
  · simp [he, ChunkVisit.gap] at hg

theorem Delivered.serveBatch (h : Delivered v since t) (hv : v.Valid)
    (hb : v.base ≤ t.cursor.nextLine) (hf : v.Fan fan)
    (hdro : isDropped (t.visitBatch fan) = false) :
    (Follows v since (t.serveBatch fan (t.visitBatch fan).visit) ∧
        (t.serveBatch fan (t.visitBatch fan).visit).phase = .live) ∨
      Left v since (t.serveBatch fan (t.visitBatch fan).visit) := by
  have hs := (serves_visit hv hf.agrees (gap_visitBatch hf hb hdro)).1
  refine (h.andThen hs fun t => { t with phase := .live }).imp_left ?_
  rintro ⟨u, -, heq, hd, hle, -⟩
  change Follows v since (Tail.andThen (t.serveVisit _ _ (visitChunk _ _ _)) _) ∧
    (Tail.andThen (t.serveVisit _ _ (visitChunk _ _ _)) _).phase = _
  rw [heq]
  exact ⟨⟨hd.congr rfl rfl, hb.trans hle⟩, rfl⟩

theorem Delivered.revisit (h : Delivered v since t) (hv : v.Valid)
    (hb : v.base ≤ t.cursor.nextLine) (hst : stop ≤ t.cursor.nextLine)
    (hp : ∀ fan ∈ pending, v.Fan fan ∧
      (v.Lost ∨ fan.batch.firstLineNumber + fan.batch.lines.length ≤ stop)) :
    (Follows v since (t.revisit pending) ∧
        ((t.revisit pending).phase = .live ∨ (t.revisit pending).phase = .claim ∧ v.Lost)) ∨
      Left v since (t.revisit pending) := by
  cases pending with
  | none => exact .inl ⟨⟨h.congr rfl rfl, hb⟩, .inl rfl⟩
  | some fan =>
    obtain ⟨hf, hl⟩ := hp fan rfl
    rw [Tail.revisit]
    split_ifs with hd
    · have hl : v.Lost := by
        refine hl.resolve_right fun hle => ?_
        rw [isDropped_of_le (hle.trans hst)] at hd
        cases hd
      exact .inl ⟨⟨h.congr rfl rfl, hl.1, .inl hl⟩, .inr ⟨rfl, hl⟩⟩
    · refine (h.serveBatch hv hb hf (Bool.eq_false_iff.mpr hd)).imp_left ?_
      exact fun hs => ⟨hs.1, .inl hs.2⟩

section Manifest

variable {rows : List StoredChunk}

section

variable (h : Delivered v since t)
include h

variable {lines : List (Nat × Line)}

theorem Delivered.onManifest_history (hv : v.Valid) (hp : t.phase = .history) (hf : t.follow = true)
    (hs : t.subscription = some lines)
    (hsn : v.Snapshot since lines stop) (hrw : v.Manifest t.cursor.nextLine rows) :
    (Follows v since (t.onManifest (rows.map StoredChunk.read)) ∧
        (t.onManifest (rows.map StoredChunk.read)).phase = .live) ∨
      Left v since (t.onManifest (rows.map StoredChunk.read)) := by
  obtain ⟨hsv, hdu⟩ := serves_manifest hv hrw
  simp only [onManifest, hp]
  rcases h.andThen hsv _ with ⟨u, hr, heq, hd, hle, hf', hs'⟩ | hl
  · rw [hr] at hdu
    have hdu : v.durable ≤ u.cursor.nextLine := hdu rfl
    obtain ⟨hsv, hst⟩ := serves_snapshot hv hsn hdu hd.since_le
    rw [heq]
    simp only [hs', hs]
    rcases hd.andThen hsv _ with ⟨w, -, heq, hd, hle', hf'', -⟩ | hl
    · have hb := hv.base_le
      rw [heq, hf'', hf', hf, if_pos rfl]
      refine .inl ⟨⟨hd.congr (w.lines_sendIgnored _ _) (w.cursor_sendIgnored _), ?_⟩, rfl⟩
      rw [cursor_sendIgnored]
      omega
    · exact .inr hl
  · exact .inr hl

theorem Delivered.onManifest_backfill (hv : v.Valid) (hb : v.base ≤ t.cursor.nextLine)
    (hp : t.phase = .backfill lines pending) (hsn : v.Snapshot t.cursor.nextLine lines stop)
    (hpe : ∀ fan ∈ pending, v.Fan fan ∧
      (v.Lost ∨ fan.batch.firstLineNumber + fan.batch.lines.length ≤ stop))
    (hrw : v.Manifest t.cursor.nextLine rows) :
    (Follows v since (t.onManifest (rows.map StoredChunk.read)) ∧
        ((t.onManifest (rows.map StoredChunk.read)).phase = .live ∨
          (t.onManifest (rows.map StoredChunk.read)).phase = .claim ∧ v.Lost)) ∨
      Left v since (t.onManifest (rows.map StoredChunk.read)) := by
  obtain ⟨hs, hdu⟩ := serves_manifest hv hrw
  simp only [onManifest, hp]
  rcases h.andThen hs _ with ⟨u, hr, heq, hd, hle, -⟩ | hl
  · rw [hr] at hdu
    obtain ⟨hs, hst⟩ := serves_snapshot hv hsn (hdu rfl) hle
    rw [heq]
    rcases hd.andThen hs _ with ⟨w, hr, heq, hd, hle', -⟩ | hl
    · rw [hr] at hst
      rw [heq]
      exact hd.revisit hv (hb.trans (hle.trans hle')) (hst rfl) hpe
    · exact .inr hl
  · exact .inr hl

theorem Delivered.onManifest_catchUp (hv : v.Valid) (hp : t.phase = .catchUp) (he : v.alive = false)
    (hrw : v.Manifest t.cursor.nextLine rows) :
    (Follows v since (t.onManifest (rows.map StoredChunk.read)) ∧
        (t.onManifest (rows.map StoredChunk.read)).phase = .claim) ∨
      Left v since (t.onManifest (rows.map StoredChunk.read)) := by
  obtain ⟨hs, hdu⟩ := serves_manifest hv hrw
  simp only [onManifest, hp]
  rcases h.andThen hs _ with ⟨u, hr, heq, hd, hle, -⟩ | hlef
  · rw [hr] at hdu
    have hdu : v.durable ≤ u.cursor.nextLine := hdu rfl
    rw [heq]
    refine .inl ⟨⟨hd.congr rfl rfl, he, ?_⟩, rfl⟩
    by_cases hl : v.durable < v.log.length
    · exact .inl ⟨he, hl⟩
    · exact .inr ((not_lt.mp hl).trans hdu)
  · exact .inr hlef

end

end Manifest

theorem Follows.onManifest (h : Follows v since t) (hv : v.Valid)
    (hr : v.Manifest t.cursor.nextLine rows) :
    Follows v since (t.onManifest (rows.map StoredChunk.read)) := by
  unfold Follows at h
  split at h
  · rename_i hp
    obtain ⟨hd, hf, lines, stop, hsu, hs⟩ := h
    exact (hd.onManifest_history hv hp hf hsu hs hr).elim And.left of_left
  · rename_i hp
    simpa [Tail.onManifest, hp, Follows] using h
  · rename_i hp
    simpa [Tail.onManifest, hp, Follows] using h
  · rename_i hp
    obtain ⟨hd, hb, stop, hs, hpe⟩ := h
    exact (hd.onManifest_backfill hv hb hp hs hpe hr).elim And.left of_left
  · rename_i hp
    exact (h.1.onManifest_catchUp hv hp h.2 hr).elim And.left of_left
  all_goals
    rename_i hp
    simpa [Tail.onManifest, hp, Follows] using h

theorem Follows.step (h : Follows v since t) (hv : v.Valid) (ho : t.Owed v e) :
    Follows v since (t.step e) := by
  cases e with
  | manifest rows =>
    cases rows with
    | none =>
      rw [Tail.step]
      split
      · exact h.close _
      · exact h
    | some rows =>
      obtain ⟨chunks, rfl, hr⟩ := ho
      exact h.onManifest hv hr
  | batch fan =>
    rw [Tail.step]
    split
    · rename_i hp
      simp only [Follows, hp] at h
      split_ifs with hd
      · refine ⟨h.1.congr rfl rfl, h.2, ?_⟩
        rintro fan' ⟨⟩
        exact ho
      · exact (h.1.serveBatch hv h.2 ho (Bool.eq_false_iff.mpr hd)).elim And.left of_left
    · exact h
  | woken =>
    rw [Tail.step]
    split
    · rename_i hp
      split
      · simp only [Follows, hp] at h
        exact ⟨h.1.congr rfl rfl, h.2, by simp⟩
      · exact h
    · exact h
  | wakeClosed =>
    rw [Tail.step]
    split
    · rename_i hp
      simp only [Follows, hp] at h ⊢
      exact ⟨h.1.congr rfl rfl, h.2⟩
    · exact h
  | ended =>
    rw [Tail.step]
    split
    · rename_i hp
      simp only [Follows, hp] at h
      exact ⟨h.1.congr rfl rfl, ho⟩
    · exact h
  | clientGone =>
    rw [Tail.step]
    split
    · exact h.close _
    · exact h
  | snapshot lines =>
    rw [Tail.step]
    split
    · rename_i pending hp
      simp only [Follows, hp] at h
      obtain ⟨stop, hsn, hl⟩ := ho
      refine ⟨h.1.congr rfl rfl, h.2.1, stop, hsn, fun fan hf => ?_⟩
      have hok := h.2.2 fan hf
      refine ⟨hok, hl.imp_right fun hs => ?_⟩
      rw [hs]
      exact hok.agrees.le hok.nonempty
    · exact h
  | claim answer =>
    unfold Tail.step
    dsimp only
    split
    · obtain ⟨stop, hli, hs⟩ := h.stopped
      exact ⟨stop, (t.lines_sendIgnored _ _).trans hli, hs⟩
    · exact h.close _
    · exact h

end Tail

end RioBuild.Log
