import RioBuild.Log.IngestRun
import RioBuild.Log.Follow

/-! One ingest session and one reader that follows it, in any interleaving.  The reader's
view is split over the manifest, the lines in memory and its queue of live batches, which
loses batches when it is full. -/

namespace RioBuild.Log

open Lib Lib.Word List

def follower : Nat := 0

namespace IngestShared

def queueOf (sh : IngestShared) (reader : Nat) : List FanBatch :=
  match sh.subscribers.find? fun t => t.reader = reader with
  | some t => t.queue
  | none => []

def dequeue (sh : IngestShared) (reader : Nat) : List Subscriber :=
  sh.subscribers.map fun t => if t.reader = reader then { t with queue := t.queue.tail } else t

def replaceOthers (sh : IngestShared) (reader : Nat) (others : List Subscriber) :
    List Subscriber :=
  (sh.subscribers.filter fun t => t.reader = reader) ++ others.filter fun t => t.reader ≠ reader

end IngestShared

/-- `INSERT … ON CONFLICT DO NOTHING`, with the object written before. -/
def insertChunk (rows : List StoredChunk) (row : StoredChunk) : List StoredChunk :=
  if ∃ other ∈ rows, other.sessionId = row.sessionId ∧ other.chunkSeq = row.chunkSeq then rows
  else rows ++ [row]

/-- What earlier sessions left: intact chunks that hold exactly a first part of the log. -/
structure StoredLog where
  lines : List Line
  rows : List StoredChunk
  sessionId : Nat
  agrees : ∀ row ∈ rows, Agrees lines row.firstLine row.lines
  bounded : ∀ row ∈ rows, row.lines.length ≤ maxChunkLinesAbs
  covers : ∀ n < lines.length, ∃ row ∈ rows, row.firstLine ≤ n ∧ n < row.stop
  fresh : ∀ row ∈ rows, row.sessionId ≠ sessionId

structure FollowConfig where
  execId : String
  sinceLine : Nat
  maxChunksPerExec : UInt32
  logChunkKey : UInt32 → String

structure LiveTail where
  stored : StoredLog
  ingest : IngestRun
  alive : Bool
  rows : List StoredChunk
  tail : Option Tail

inductive LiveEvent
  | accept (now : Nat) (sends : Nat → TrySend) (batch : BuildLogBatch)
  | finalLineCount (n : Nat)
  | others (subscribers : List Subscriber)
  | beginCut
  | rowCommitted (i : Nat)
  | cutSucceeded (now : Nat)
  | cutFailed
  | cutAbandoned
  | sessionEnds
  | subscribe (room : Nat)
  | manifest (rows : List StoredChunk)
  | manifestFailed
  | recv
  | woken
  | wakeClosed
  | ended
  | clientGone
  | snapshot
  | claim (answer : Option (Option Int64 × List (Int × Int)))

def Attempt.chunk (sessionId : Nat) (logChunkKey : UInt32 → String) (a : Attempt) :
    Option StoredChunk :=
  if fits : a.firstLine + a.lines.length ≤ i64Max then
    some ⟨sessionId, a.seq, logChunkKey a.seq, a.firstLine, a.lines, fits⟩
  else none

namespace LiveTail

def start (stored : StoredLog) (finalLineCount : Option Int) (mergedBytes : Nat)
    (mergedChunks : UInt32) (config : IngestConfig) : LiveTail where
  stored := stored
  ingest := ⟨.new ⟨finalLineCount, mergedBytes, mergedChunks,
    .fromIntervals (stored.rows.map fun row => (row.firstLine, row.lines.length))⟩ config,
    none, [], [], []⟩
  alive := true
  rows := stored.rows
  tail := none

def log (s : LiveTail) : List Line := s.stored.lines ++ s.ingest.accepted.map Prod.snd

def shared (s : LiveTail) : IngestShared := s.ingest.session.shared

def queue (s : LiveTail) : List FanBatch := s.shared.queueOf follower

def isContiguous (s : LiveTail) (batch : BuildLogBatch) : Bool :=
  match s.ingest.session.admission batch with
  | .buffered b _ => b.firstLineNumber = s.log.length
  | _ => true

def ingestStep (cfg : FollowConfig) (s : LiveTail) (e : IngestEvent) : LiveTail :=
  if s.alive then { s with ingest := s.ingest.step cfg.maxChunksPerExec e } else s

def commitRow (cfg : FollowConfig) (s : LiveTail) (a : Attempt) : LiveTail :=
  match a.chunk s.stored.sessionId cfg.logChunkKey with
  | some row => { s with rows := insertChunk s.rows row }
  | none => s

def takeBatch (cfg : FollowConfig) (s : LiveTail) : LiveTail :=
  let e := IngestEvent.readers (s.shared.dequeue follower)
  { s with ingest := s.ingest.step cfg.maxChunksPerExec e }

def tailStep (s : LiveTail) (e : TailEvent) : LiveTail := { s with tail := s.tail.map (·.step e) }

def IsManifestRange (s : LiveTail) (since : Nat) (rows : List StoredChunk) : Prop :=
  rows.Perm (s.rows.filter fun row => since < row.stop) ∧
    rows.Pairwise fun a b => a.firstLine ≤ b.firstLine

instance (s : LiveTail) (since : Nat) (rows : List StoredChunk) :
    Decidable (s.IsManifestRange since rows) :=
  inferInstanceAs (Decidable (_ ∧ _))

def step (cfg : FollowConfig) (s : LiveTail) : LiveEvent → LiveTail
  | .accept now sends batch =>
    if s.isContiguous batch then s.ingestStep cfg (.accept now sends batch) else s
  | .finalLineCount n => s.ingestStep cfg (.finalLineCount n)
  | .others subscribers =>
    s.ingestStep cfg (.readers (s.shared.replaceOthers follower subscribers))
  | .beginCut => s.ingestStep cfg .beginCut
  | .rowCommitted i => match s.ingest.attempts[i]? with
    | some a => s.commitRow cfg a
    | none => s
  | .cutSucceeded now => match s.alive, s.ingest.active with
    | true, some a => (s.commitRow cfg a).ingestStep cfg (.cutSucceeded now)
    | _, _ => s
  | .cutFailed => s.ingestStep cfg .cutFailed
  | .cutAbandoned => s.ingestStep cfg .cutAbandoned
  | .sessionEnds => { s with alive := false }
  | .subscribe room => match s.alive, s.tail with
    | true, none =>
      let (shared, snapshot) := s.shared.subscribe follower cfg.sinceLine
      { s.ingestStep cfg (.readers shared.subscribers) with
        tail := some (.start cfg.execId cfg.sinceLine true (some snapshot) room) }
    | _, _ => s
  | .manifest rows => match s.tail with
    | some t =>
      if s.IsManifestRange t.cursor.nextLine rows then
        s.tailStep (.manifest (some (rows.map StoredChunk.read)))
      else s
    | none => s
  | .manifestFailed => s.tailStep (.manifest none)
  | .recv => match s.tail, s.queue with
    | some t, fan :: _ =>
      if t.phase = .live then (s.takeBatch cfg).tailStep (.batch fan) else s
    | _, _ => s
  | .woken => s.tailStep .woken
  | .wakeClosed => s.tailStep .wakeClosed
  | .ended => if s.alive = false ∧ s.queue = [] then s.tailStep .ended else s
  | .clientGone => s.tailStep .clientGone
  | .snapshot => match s.tail with
    | some t => s.tailStep
      (.snapshot (if s.alive then s.shared.snapshotSince t.cursor.nextLine else []))
    | none => s
  | .claim answer => s.tailStep (.claim answer)

def run (cfg : FollowConfig) (s : LiveTail) (events : List LiveEvent) : LiveTail :=
  events.foldl (step cfg) s

end LiveTail

namespace IngestShared

variable (sh : IngestShared) (reader : Nat)

theorem queueOf_congr {sh sh' : IngestShared} (h : sh'.subscribers = sh.subscribers) :
    sh'.queueOf reader = sh.queueOf reader := by
  rw [queueOf, queueOf, h]

@[simp] theorem subscribers_restoreInFlight : sh.restoreInFlight.subscribers = sh.subscribers := by
  unfold restoreInFlight
  split
  all_goals rfl

theorem queueOf_restoreInFlight : sh.restoreInFlight.queueOf reader = sh.queueOf reader :=
  queueOf_congr reader (subscribers_restoreInFlight sh)

theorem subscribers_fanOut :
    (sh.fanOut sends b).subscribers = sh.subscribers.filterMap fun t => match sends t.reader with
      | .ok => some { t with queue := t.queue ++ [b] }
      | .full => some t
      | .closed => none := by
  unfold fanOut
  dsimp only
  split <;> rfl

theorem find?_dequeue (subscribers : List Subscriber) : (subscribers.map fun t =>
      if t.reader = reader then { t with queue := t.queue.tail } else t).find?
      (fun t => t.reader = reader) =
    (subscribers.find? fun t => t.reader = reader).map fun t =>
      { t with queue := t.queue.tail } := by
  induction subscribers with
  | nil => rfl
  | cons t subscribers ih =>
    by_cases ht : t.reader = reader
    · simp [ht]
    · simpa [ht] using ih

theorem queueOf_dequeue :
    ({ sh with subscribers := sh.dequeue reader } : IngestShared).queueOf reader =
      (sh.queueOf reader).tail := by
  simp only [queueOf, dequeue, find?_dequeue]
  cases sh.subscribers.find? fun t => t.reader = reader with
  | none | some t => rfl

theorem queueOf_replaceOthers (others : List Subscriber) :
    ({ sh with subscribers := sh.replaceOthers reader others } : IngestShared).queueOf reader =
      sh.queueOf reader := by
  have hn : (others.filter fun t => t.reader ≠ reader).find? (fun t => t.reader = reader) =
      none := by simp
  simp only [queueOf, replaceOthers, find?_append, hn, Option.or_none,
    find?_filter, and_self, Bool.decide_eq_true]

theorem queueOf_subscribe (since : Nat) :
    (sh.subscribe reader since).1.queueOf reader = sh.queueOf reader := by
  simp only [queueOf, subscribe, find?_append]
  cases sh.subscribers.find? fun t => t.reader = reader with
  | none => simp
  | some t => rfl

theorem mem_queueOf_fanOut (h : fan ∈ (sh.fanOut sends b).queueOf reader) :
    fan ∈ sh.queueOf reader ∨ fan = b := by
  unfold queueOf at h ⊢
  rw [subscribers_fanOut, find?_filterMap] at h
  have hk : ∀ t : Subscriber, Option.any (fun t : Subscriber => decide (t.reader = reader))
      (match sends t.reader with
        | .ok => some { t with queue := t.queue ++ [b] }
        | .full => some t
        | .closed => none) = (decide (t.reader = reader) && decide (sends reader ≠ .closed)) := by
    intro t
    by_cases ht : t.reader = reader
    · subst ht
      cases sends t.reader <;> simp
    · cases sends t.reader <;> simp [ht]
  simp only [hk] at h
  by_cases hc : sends reader = .closed
  · have hn : (sh.subscribers.find? fun _ => false) = none :=
      find?_eq_none.mpr (by simp)
    simp [hc, hn] at h
  · simp only [ne_eq, hc, not_false_eq_true, decide_true, Bool.and_true] at h
    cases hf : sh.subscribers.find? fun t => decide (t.reader = reader) with
    | none => simp [hf] at h
    | some t =>
      rw [hf] at h
      cases hs : sends t.reader with
      | ok => simpa [hs] using h
      | full => exact .inl (by simpa [hs] using h)
      | closed => simp [hs] at h

end IngestShared

theorem boundedContiguousPrefixLen_le :
    boundedContiguousPrefixLen maxChunkPayloadBytes lines ≤ maxChunkLinesAbs := by
  cases lines with
  | nil => exact Nat.zero_le _
  | cons p lines =>
    obtain ⟨k, hk⟩ : ∃ k, boundedContiguousPrefixLen maxChunkPayloadBytes (p :: lines) = k + 1 :=
      ⟨_, rfl⟩
    obtain ⟨hr, hc⟩ := charged_of_le (by decide) hk.ge
    have hl := length_mul_le_chargedPayload (lines.take k)
    have hn : (lines.take k).length = k := by simpa using congrArg length hr
    rw [hn] at hl
    rw [hk]
    simp only [chargedPayload_cons, perLineOverheadBytes, lineLenPrefixBytes,
      maxChunkPayloadBytes, maxChunkLinesAbs] at *
    omega

theorem first_eq_of_append (hne : xs ≠ []) (h : numberFrom a xs ++ l = numberFrom b ys) :
    a = b := by
  cases xs with
  | nil => exact absurd rfl hne
  | cons x xs =>
    cases ys with
    | nil => simp at h
    | cons y ys =>
      simp only [numberFrom_cons, cons_append, cons.injEq, Prod.mk.injEq] at h
      exact h.1.1

theorem StoredLog.fits (stored : StoredLog) : stored.lines.length ≤ i64Max := by
  by_cases hn : stored.lines.length = 0
  · omega
  · obtain ⟨row, _, _, hs⟩ := stored.covers (stored.lines.length - 1) (by omega)
    have := row.fits
    rw [StoredChunk.stop] at hs
    omega

namespace LiveTail

variable {cfg : FollowConfig} {s : LiveTail}

def durable (s : LiveTail) : Nat :=
  s.stored.lines.length + (s.ingest.committed.flatMap Attempt.numbered).length

def view (s : LiveTail) : StoreView where
  log := s.log
  base := s.stored.lines.length
  durable := s.durable
  alive := s.alive

structure StoreInv (cfg : FollowConfig) (s : LiveTail) : Prop where
  ingest : ∃ seed config, s.ingest.Inv seed config
  accepted : s.ingest.accepted = numberFrom s.stored.lines.length (s.ingest.accepted.map Prod.snd)
  fits : s.log.length ≤ i64Max
  highWater : s.ingest.accepted = [] ∨ s.log.length ≤ s.ingest.session.highWaterLine
  kept : ∀ row ∈ s.stored.rows, row ∈ s.rows
  rows : ∀ row ∈ s.rows, row ∈ s.stored.rows ∨
    ∃ a ∈ s.ingest.attempts, a.chunk s.stored.sessionId cfg.logChunkKey = some row
  committed : ∀ a ∈ s.ingest.committed, ∃ row ∈ s.rows,
    a.chunk s.stored.sessionId cfg.logChunkKey = some row
  starts : ∀ a ∈ s.ingest.attempts, a.firstLine ≤ s.durable ∧ a.lines.length ≤ maxChunkLinesAbs
  queued : ∀ fan ∈ s.queue, s.view.Fan fan

theorem numberFrom_log (h : StoreInv cfg s) :
    numberFrom 0 s.log = numberFrom 0 s.stored.lines ++ s.ingest.accepted := by
  rw [log, numberFrom_append, zero_add, ← h.accepted]

theorem length_log (s : LiveTail) :
    s.log.length = s.stored.lines.length + s.ingest.accepted.length := by
  rw [log, length_append, length_map]

theorem pending_eq (h : StoreInv cfg s) :
    s.shared.pending = window s.log s.durable s.log.length ∧ s.durable ≤ s.log.length := by
  obtain ⟨seed, config, hi⟩ := h.ingest
  have hd : s.shared.pending =
      s.ingest.accepted.drop (s.ingest.committed.flatMap Attempt.numbered).length := by
    rw [hi.conserved, drop_left]
    rfl
  have hl := congrArg length hi.conserved
  rw [length_append] at hl
  refine ⟨?_, ?_⟩
  · have ho : s.stored.lines.drop s.durable = [] :=
      drop_eq_nil_of_le (Nat.le_add_right _ _)
    rw [hd, h.accepted, drop_numberFrom, window_of_length_le le_rfl, log, drop_append,
      ho, nil_append, durable, Nat.add_sub_cancel_left]
  · rw [length_log, durable]
    omega

theorem pending_eq_nil_iff (h : StoreInv cfg s) :
    s.shared.pending = [] ↔ s.durable = s.log.length := by
  obtain ⟨hp, hle⟩ := pending_eq h
  constructor
  · intro hn
    exact le_antisymm hle (le_of_window_eq_nil le_rfl (hp ▸ hn))
  · intro heq
    rw [hp, window_eq_nil heq.ge]

theorem valid_view (h : StoreInv cfg s) : s.view.Valid where
  base_le := Nat.le_add_right _ _
  durable_le := (pending_eq h).2
  fits := h.fits

theorem chunk_eq {a : Attempt} (h : a.chunk sessionId key = some row) :
    row.sessionId = sessionId ∧ row.chunkSeq = a.seq ∧ row.firstLine = a.firstLine ∧
      row.lines = a.lines := by
  unfold Attempt.chunk at h
  split at h
  · injection h with h
    subst h
    exact ⟨rfl, rfl, rfl, rfl⟩
  · cases h

theorem agrees_attempt (h : StoreInv cfg s) (ha : a ∈ s.ingest.attempts) :
    Agrees s.log a.firstLine a.lines := by
  obtain ⟨seed, config, hi⟩ := h.ingest
  intro p hp
  rw [numberFrom_log h]
  exact mem_append_right _ ((hi.written a ha).2.subset hp)

variable {rows : List StoredChunk}

theorem manifest_of_range (h : StoreInv cfg s)
    (hro : s.IsManifestRange since rows) : s.view.Manifest since rows := by
  have hm : ∀ row ∈ rows, row ∈ s.rows := fun row hr =>
    (mem_filter.mp (hro.1.subset hr)).1
  refine ⟨fun row hr => ?_, fun row hr => ?_, fun row hr hne => ?_, hro.2, ?_⟩
  · rcases h.rows row (hm row hr) with ho | ⟨a, ha, hc⟩
    · exact (s.stored.agrees row ho).append _
    · obtain ⟨-, -, hf, hl⟩ := chunk_eq hc
      rw [hf, hl]
      exact agrees_attempt h ha
  · rcases h.rows row (hm row hr) with ho | ⟨a, ha, hc⟩
    · exact s.stored.bounded row ho
    · exact (chunk_eq hc).2.2.2 ▸ (h.starts a ha).2
  · rcases h.rows row (hm row hr) with ho | ⟨a, ha, hc⟩
    · have hle := (s.stored.agrees row ho).le hne
      change row.firstLine ≤ s.durable
      rw [durable]
      omega
    · exact (chunk_eq hc).2.2.1 ▸ (h.starts a ha).1
  · intro n hsi hn
    suffices hr : ∃ row ∈ s.rows, row.firstLine ≤ n ∧ n < row.stop by
      obtain ⟨row, hr, hfr, hu⟩ := hr
      refine ⟨row, hro.1.symm.subset (mem_filter.mpr ⟨hr, ?_⟩), hfr, hu⟩
      simp only [decide_eq_true_eq]
      omega
    by_cases ho : n < s.stored.lines.length
    · obtain ⟨row, hr, hs⟩ := s.stored.covers n ho
      exact ⟨row, h.kept row hr, hs⟩
    · -- the line is among those of the committed cuts
      obtain ⟨seed, config, hi⟩ := h.ingest
      have hlt : n - s.stored.lines.length <
          (s.ingest.committed.flatMap Attempt.numbered).length := by
        change n < s.durable at hn
        rw [durable] at hn
        omega
      have ht : s.ingest.committed.flatMap Attempt.numbered =
          numberFrom s.stored.lines.length ((s.ingest.accepted.map Prod.snd).take
            (s.ingest.committed.flatMap Attempt.numbered).length) := by
        rw [← take_numberFrom, ← h.accepted, hi.conserved, take_left]
      have hlen := congrArg length ht
      rw [length_numberFrom] at hlen
      rw [hlen] at hlt
      have hlin := ht.symm ▸ mem_numberFrom.mpr ⟨not_lt.mp ho, getElem?_eq_getElem hlt⟩
      obtain ⟨a, ha, hm⟩ := mem_flatMap.mp hlin
      obtain ⟨row, hr, hc⟩ := h.committed a ha
      obtain ⟨-, -, hf, hl⟩ := chunk_eq hc
      have := bounds_of_mem_numberFrom hm
      refine ⟨row, hr, ?_, ?_⟩
      · rw [hf]
        exact this.1
      · rw [StoredChunk.stop, hf, hl]
        exact this.2

theorem mem_insertChunk (h : other ∈ insertChunk rows row) : other ∈ rows ∨ other = row := by
  unfold insertChunk at h
  split at h
  · exact .inl h
  · simpa using h

theorem mem_insertChunk_of_mem (row : StoredChunk) (h : other ∈ rows) :
    other ∈ insertChunk rows row := by
  unfold insertChunk
  split
  · exact h
  · exact mem_append_left _ h

namespace StoreInv

theorem chunk_fits (h : StoreInv cfg s) (ha : a ∈ s.ingest.attempts) :
    ∃ row, a.chunk s.stored.sessionId cfg.logChunkKey = some row := by
  obtain ⟨seed, config, hi⟩ := h.ingest
  have hle := (agrees_attempt h ha).le (hi.written a ha).1
  exact ⟨_, dif_pos (hle.trans h.fits)⟩

/-- Rows of one key are the same row, so that a conflicting insertion loses nothing. -/
theorem mem_insertChunk_self (h : StoreInv cfg s) (ha : a ∈ s.ingest.attempts)
    (hr : a.chunk s.stored.sessionId cfg.logChunkKey = some row) :
    row ∈ insertChunk s.rows row := by
  unfold insertChunk
  split
  · rename_i hco
    obtain ⟨other, ho, hi, hs⟩ := hco
    obtain ⟨hi', hs', -⟩ := chunk_eq hr
    rcases h.rows other ho with hold | ⟨b, hb, hc⟩
    · exact absurd (hi.trans hi') (s.stored.fresh other hold)
    · obtain ⟨seed, config, hiv⟩ := h.ingest
      obtain ⟨-, hse, -⟩ := chunk_eq hc
      have hab : b = a := inj_on_of_nodup_map hiv.nodup_seq hb ha (hse.symm.trans (hs.trans hs'))
      rw [hab, hr] at hc
      injection hc with hc
      rw [hc]
      exact ho
  · exact mem_append_right _ (mem_singleton_self _)

theorem commitRow (h : StoreInv cfg s) (ha : a ∈ s.ingest.attempts) :
    StoreInv cfg (s.commitRow cfg a) ∧ ∃ row ∈ (s.commitRow cfg a).rows,
      a.chunk s.stored.sessionId cfg.logChunkKey = some row := by
  obtain ⟨row, hrw⟩ := h.chunk_fits ha
  simp only [LiveTail.commitRow, hrw]
  refine ⟨⟨h.ingest, h.accepted, h.fits, h.highWater, ?_, ?_, ?_, h.starts, h.queued⟩, row,
    h.mem_insertChunk_self ha hrw, rfl⟩
  · exact fun r hr => mem_insertChunk_of_mem row (h.kept r hr)
  · intro r hr
    rcases mem_insertChunk hr with hr | rfl
    · exact h.rows r hr
    · exact .inr ⟨a, ha, hrw⟩
  · intro b hb
    obtain ⟨r, hr, hc⟩ := h.committed b hb
    exact ⟨r, mem_insertChunk_of_mem row hr, hc⟩

theorem view_eq (s : LiveTail) (r : IngestRun) (ha : r.accepted = s.ingest.accepted)
    (hc : r.committed = s.ingest.committed) :
    ({ s with ingest := r } : LiveTail).view = s.view := by
  simp [view, log, durable, ha, hc]

section

variable (h : StoreInv cfg s)
include h

theorem keep (r : IngestRun) (hi : ∃ seed config, r.Inv seed config)
    (ha : r.accepted = s.ingest.accepted) (hc : r.committed = s.ingest.committed)
    (hat : r.attempts = s.ingest.attempts)
    (hh : s.ingest.session.highWaterLine ≤ r.session.highWaterLine)
    (hq : ∀ fan ∈ r.session.shared.queueOf follower, fan ∈ s.queue) :
    StoreInv cfg { s with ingest := r } := by
  have hv := view_eq s r ha hc
  have hl : ({ s with ingest := r }).log = s.log := congrArg StoreView.log hv
  have hd : ({ s with ingest := r }).durable = s.durable :=
    congrArg StoreView.durable hv
  refine ⟨hi, ?_, hl ▸ h.fits, ?_, h.kept, ?_, ?_, ?_, ?_⟩
  · simp only [ha]
    exact h.accepted
  · rw [hl]
    simp only [ha]
    exact h.highWater.imp_right fun hle => hle.trans hh
  · simp only [hat]
    exact h.rows
  · simp only [hc]
    exact h.committed
  · rw [hd]
    simp only [hat]
    exact h.starts
  · rw [hv]
    exact fun fan hf => h.queued fan (hq fan hf)

theorem append (now : Nat) (sends : Nat → TrySend)
    (hb : s.ingest.session.Buffers b stop) (hc : b.firstLineNumber = s.log.length) :
    let s' := { s with ingest := { s.ingest with
      session := s.ingest.session.append now sends b stop
      accepted := s.ingest.accepted ++ numberFrom b.firstLineNumber b.lines } }
    StoreInv cfg s' ∧ s'.log = s.log ++ b.lines ∧ s'.durable = s.durable := by
  intro s'
  have hl : s'.log = s.log ++ b.lines := by
    simp [s', log]
  have hd : s'.durable = s.durable := rfl
  have hs : s'.log.length = stop := by
    rw [hl, length_append, hb.stop_eq, hc]
  have hf : s'.view.Fan ⟨s.ingest.session.highWaterLine, b⟩ := by
    refine ⟨hb.nonempty, ?_, ?_⟩
    · change Agrees s'.log b.firstLineNumber b.lines
      intro p hp
      rw [hl, numberFrom_append, zero_add, ← hc]
      exact mem_append_right _ hp
    · have hmo := hb.monotone
      rcases h.highWater with hn | hle
      · right
        change b.firstLineNumber ≤ s.stored.lines.length
        rw [hc, length_log, hn, length_nil, add_zero]
      · left
        change s.ingest.session.highWaterLine = b.firstLineNumber
        omega
  have he : ∀ fan, s.view.Fan fan → s'.view.Fan fan := by
    intro fan ho
    refine ⟨ho.nonempty, ?_, ho.floor⟩
    change Agrees s'.log _ _
    rw [hl]
    exact ho.agrees.append b.lines
  refine ⟨⟨?_, ?_, ?_, ?_, h.kept, h.rows, h.committed, h.starts, ?_⟩, hl, hd⟩
  · obtain ⟨seed, config, hi⟩ := h.ingest
    exact ⟨seed, config, hi.append now sends hb⟩
  · change s.ingest.accepted ++ numberFrom b.firstLineNumber b.lines =
      numberFrom s.stored.lines.length
        ((s.ingest.accepted ++ numberFrom b.firstLineNumber b.lines).map Prod.snd)
    rw [map_append, numberFrom_append, ← h.accepted, map_snd_numberFrom, length_map,
      ← length_log, hc]
  · rw [hs]
    exact hb.representable
  · exact .inr hs.le
  · intro fan hm
    have hsu : (s.ingest.session.append now sends b stop).shared.subscribers =
        (s.shared.fanOut sends ⟨s.ingest.session.highWaterLine, b⟩).subscribers := by
      simp only [IngestSession.append, IngestShared.subscribers_fanOut]
      split <;> rfl
    have hm : fan ∈ (s.shared.fanOut sends ⟨s.ingest.session.highWaterLine, b⟩).queueOf
        follower := IngestShared.queueOf_congr follower hsu ▸ hm
    rcases s.shared.mem_queueOf_fanOut follower hm with hold | rfl
    · exact he fan (h.queued fan hold)
    · exact hf

theorem beginCut (hro : s.ingest.session.chunkAttempts < cfg.maxChunksPerExec)
    (hc : s.ingest.session.beginCut.2 = some a) : StoreInv cfg { s with ingest := { s.ingest with
      session := s.ingest.session.beginCut.1
      active := some a
      attempts := s.ingest.attempts ++ [a] } } := by
  obtain ⟨hs, -, hne, hr⟩ := IngestSession.beginCut_some hc
  obtain ⟨hp, -⟩ := pending_eq h
  have hfs : a.firstLine = s.durable := by
    have hsp := IngestSession.pending_beginCut s.ingest.session
    rw [IngestShared.pending, hr] at hsp
    exact first_eq_of_append hne (hsp.trans hp)
  have hbo : a.lines.length ≤ maxChunkLinesAbs := by
    have hl := congrArg length hr
    rw [hs, Attempt.numbered, length_numberFrom] at hl
    rw [← hl]
    exact (length_take_le _ _).trans boundedContiguousPrefixLen_le
  refine ⟨?_, h.accepted, h.fits, ?_, h.kept, ?_, h.committed, ?_, ?_⟩
  · obtain ⟨seed, config, hi⟩ := h.ingest
    have := hi.beginCut hro
    rw [hc] at this
    exact ⟨seed, config, this⟩
  · rw [hs]
    exact h.highWater
  · intro row hrw
    refine (h.rows row hrw).imp_right ?_
    rintro ⟨b, hb, hck⟩
    exact ⟨b, mem_append_left _ hb, hck⟩
  · intro b hb
    rcases mem_append.mp hb with hb | hb
    · exact h.starts b hb
    · rw [mem_singleton.mp hb]
      exact ⟨hfs.le, hbo⟩
  · intro fan hf
    have hsu : s.ingest.session.beginCut.1.shared.subscribers = s.shared.subscribers := by
      rw [hs]
      exact IngestShared.subscribers_restoreInFlight _
    rw [queue, shared, IngestShared.queueOf_congr follower hsu] at hf
    exact h.queued fan hf

theorem cutSucceeded (now : Nat) (ha : s.ingest.active = some a)
    (hr : ∃ row ∈ s.rows, a.chunk s.stored.sessionId cfg.logChunkKey = some row) :
    let s' := { s with ingest := s.ingest.step cfg.maxChunksPerExec (.cutSucceeded now) }
    StoreInv cfg s' ∧ s'.log = s.log ∧ s.durable ≤ s'.durable := by
  intro s'
  have hi : s'.ingest = { s.ingest with
      session := (s.ingest.session.finishCut now a).1
      active := none
      committed := s.ingest.committed ++ [a] } := by
    simp [s', IngestRun.step, ha]
  have hl : s'.log = s.log := by
    rw [log, hi]
    rfl
  have hd : s.durable ≤ s'.durable := by
    rw [durable, durable, hi, flatMap_append, length_append]
    exact Nat.add_le_add_left (Nat.le_add_right _ _) _
  refine ⟨⟨?_, ?_, hl ▸ h.fits, ?_, h.kept, ?_, ?_, ?_, ?_⟩, hl, hd⟩
  · obtain ⟨seed, config, hiv⟩ := h.ingest
    refine ⟨seed, config, ?_⟩
    change (s.ingest.step cfg.maxChunksPerExec (.cutSucceeded now)).Inv seed config
    exact hiv.cutSucceeded now
  · rw [hi]
    exact h.accepted
  · rw [hl, hi]
    exact h.highWater
  · rw [hi]
    exact h.rows
  · intro b hb
    rw [hi] at hb
    rcases mem_append.mp hb with hb | hb
    · exact h.committed b hb
    · rw [mem_singleton.mp hb]
      exact hr
  · intro b hb
    rw [hi] at hb
    exact ⟨(h.starts b hb).1.trans hd, (h.starts b hb).2⟩
  · intro fan hf
    rw [queue, shared, hi] at hf
    have ho := h.queued fan hf
    refine ⟨ho.nonempty, ?_, ho.floor⟩
    change Agrees s'.log _ _
    rw [hl]
    exact ho.agrees

end

end StoreInv

structure Inv (cfg : FollowConfig) (s : LiveTail) : Prop where
  store : StoreInv cfg s
  reader : ∀ t ∈ s.tail, t.Follows s.view cfg.sinceLine

theorem extends_refl (v : StoreView) : v.Extends v :=
  ⟨rfl, le_rfl, ⟨[], (append_nil _).symm⟩, fun _ => rfl⟩

theorem mem_queue_of_eq {queue : List FanBatch} (h : queue = s.shared.queueOf follower) :
    ∀ fan ∈ queue, fan ∈ s.queue := by
  rw [h]
  exact fun _ hf => hf

theorem inv_start (stored : StoredLog) (finalLineCount : Option Int) (mergedBytes : Nat)
    (mergedChunks : UInt32) (config : IngestConfig) :
    Inv cfg (start stored finalLineCount mergedBytes mergedChunks config) := by
  have hq : (start stored finalLineCount mergedBytes mergedChunks config).queue = [] := by
    cases finalLineCount with
    | none | some n => rfl
  refine ⟨⟨⟨_, _, IngestRun.inv_start _ config⟩, rfl, ?_, .inl rfl, fun _ h => h,
    fun _ h => .inl h, by simp [start], by simp [start], ?_⟩, by simp [start]⟩
  · simp only [log, start, map_nil, append_nil]
    exact stored.fits
  · rw [hq]
    simp

namespace Inv

section

variable (h : Inv cfg s)
include h

theorem of_store (hs : StoreInv cfg s') (he : s.view.Extends s'.view)
    (hta : s'.tail = s.tail) : Inv cfg s' where
  store := hs
  reader := fun t ht => (h.reader t (hta ▸ ht)).mono he

theorem tailStep (ho : ∀ t ∈ s.tail, t.Owed s.view e) : Inv cfg (s.tailStep e) where
  store := { h.store with }
  reader := by
    intro t ht
    obtain ⟨t', ht', rfl⟩ := Option.map_eq_some_iff.mp ht
    exact (h.reader t' ht').step (valid_view h.store) (ho t' ht')

theorem keep (ha : (s.ingest.step cfg.maxChunksPerExec e).accepted = s.ingest.accepted)
    (hc : (s.ingest.step cfg.maxChunksPerExec e).committed = s.ingest.committed)
    (hat : (s.ingest.step cfg.maxChunksPerExec e).attempts = s.ingest.attempts)
    (hh : s.ingest.session.highWaterLine ≤
      (s.ingest.step cfg.maxChunksPerExec e).session.highWaterLine)
    (hq : ∀ fan ∈ (s.ingest.step cfg.maxChunksPerExec e).session.shared.queueOf follower,
      fan ∈ s.queue) : Inv cfg { s with ingest := s.ingest.step cfg.maxChunksPerExec e } := by
  obtain ⟨seed, config, hi⟩ := h.store.ingest
  refine h.of_store (h.store.keep _ ⟨seed, config, hi.step e⟩ ha hc hat hh hq) ?_ rfl
  rw [StoreInv.view_eq s _ ha hc]
  exact extends_refl _

theorem ingestStep
    (hs : s.alive = true → Inv cfg { s with ingest := s.ingest.step cfg.maxChunksPerExec e }) :
    Inv cfg (s.ingestStep cfg e) := by
  unfold LiveTail.ingestStep
  split
  · rename_i ha
    exact hs ha
  · exact h

theorem accept (now : Nat) (sends : Nat → TrySend) (hal : s.alive = true)
    (hc : s.isContiguous batch = true) :
    Inv cfg { s with ingest := s.ingest.step cfg.maxChunksPerExec (.accept now sends batch) } := by
  rcases s.ingest.session.accept_cases now sends batch with ⟨e, ha, _⟩ |
    ⟨hw, o, ha, hle, hli, _⟩ | ⟨b, stop, ha, hb, had⟩
  · refine h.keep ?_ ?_ ?_ ?_ ?_ <;> simp only [IngestRun.step, ha]
    · exact le_rfl
    · exact fun fan hf => hf
  · refine h.keep ?_ ?_ ?_ ?_ ?_ <;> simp only [IngestRun.step, ha, hli, append_nil]
    · exact hle
    · exact fun fan hf => hf
  · have hfs : b.firstLineNumber = s.log.length := by
      simpa [isContiguous, had] using hc
    obtain ⟨hs, hl, hd⟩ := h.store.append now sends hb hfs
    have hst : s.ingest.step cfg.maxChunksPerExec (.accept now sends batch) = { s.ingest with
        session := s.ingest.session.append now sends b stop
        accepted := s.ingest.accepted ++ numberFrom b.firstLineNumber b.lines } := by
      simp [IngestRun.step, ha, had, Admission.lines]
    rw [hst]
    refine h.of_store hs ⟨rfl, hd.ge, ⟨b.lines, hl⟩, fun he => ?_⟩ rfl
    change s.alive = false at he
    rw [hal] at he
    cases he

theorem beginCut : Inv cfg { s with ingest := s.ingest.step cfg.maxChunksPerExec .beginCut } := by
  by_cases hr : s.ingest.session.chunkAttempts < cfg.maxChunksPerExec
  · cases hc : s.ingest.session.beginCut.2 with
    | none =>
      obtain ⟨-, hs⟩ := IngestSession.beginCut_none hc
      refine h.keep ?_ ?_ ?_ ?_ ?_ <;>
        simp only [IngestRun.step, if_pos hr, hc, hs, Option.toList_none, append_nil]
      · exact le_rfl
      · exact mem_queue_of_eq (s.shared.queueOf_restoreInFlight follower)
    | some a =>
      have hst : s.ingest.step cfg.maxChunksPerExec .beginCut = { s.ingest with
          session := s.ingest.session.beginCut.1
          active := some a
          attempts := s.ingest.attempts ++ [a] } := by
        simp [IngestRun.step, if_pos hr, hc]
      rw [hst]
      exact h.of_store (h.store.beginCut hr hc) (extends_refl _) rfl
  · have hst : s.ingest.step cfg.maxChunksPerExec .beginCut = s.ingest := by
      simp [IngestRun.step, if_neg hr]
    rw [hst]
    exact h

theorem cutEnded (he : ev = .cutFailed ∨ ev = .cutAbandoned) :
    Inv cfg { s with ingest := s.ingest.step cfg.maxChunksPerExec ev } := by
  cases ha : s.ingest.active with
  | none =>
    have hs : s.ingest.step cfg.maxChunksPerExec ev = s.ingest := by
      rcases he with rfl | rfl <;> simp [IngestRun.step, ha]
    rw [hs]
    exact h
  | some a =>
    rcases he with rfl | rfl <;> refine h.keep ?_ ?_ ?_ ?_ ?_ <;> simp only [IngestRun.step, ha]
    · exact le_rfl
    · exact mem_queue_of_eq (s.shared.queueOf_restoreInFlight follower)
    · exact le_rfl
    · exact fun fan hf => hf

theorem readers {subscribers : List Subscriber}
    (hq : ∀ fan ∈ ({ s.shared with subscribers } : IngestShared).queueOf follower, fan ∈ s.queue) :
    Inv cfg { s with ingest := s.ingest.step cfg.maxChunksPerExec (.readers subscribers) } :=
  h.keep rfl rfl rfl le_rfl hq

theorem commitRow (ha : a ∈ s.ingest.attempts) : Inv cfg (s.commitRow cfg a) := by
  obtain ⟨row, hr⟩ := h.store.chunk_fits ha
  refine h.of_store (h.store.commitRow ha).1 ?_ ?_
  · simp only [LiveTail.commitRow, hr]
    exact extends_refl _
  · simp [LiveTail.commitRow, hr]

theorem cutSucceeded (now : Nat) (hal : s.alive = true) (hac : s.ingest.active = some a) :
    Inv cfg ((s.commitRow cfg a).ingestStep cfg (.cutSucceeded now)) := by
  obtain ⟨seed, config, hi⟩ := h.store.ingest
  have ha := (hi.staged a hac).2
  have hc := h.commitRow ha
  obtain ⟨row, hck⟩ := h.store.chunk_fits ha
  have hr := (h.store.commitRow ha).2
  simp only [LiveTail.commitRow, hck] at hc hr ⊢
  refine hc.ingestStep fun _ => ?_
  obtain ⟨hs, hl, hd⟩ := hc.store.cutSucceeded now hac (by simpa [hck] using hr)
  refine hc.of_store hs ⟨rfl, hd, ⟨[], ?_⟩, fun he => ?_⟩ rfl
  · rw [append_nil]
    exact hl
  · rw [hal] at he
    cases he

end

end Inv

theorem snapshot_of_alive (h : StoreInv cfg s) :
    s.view.Snapshot since (s.shared.snapshotSince since) s.log.length := by
  refine ⟨le_rfl, s.durable, le_rfl, ?_⟩
  change s.shared.pending.filter (fun p => since ≤ p.1) = window s.log _ _
  rw [(pending_eq h).1, filter_window]

theorem Inv.subscribe (h : Inv cfg s) (room : Nat) : Inv cfg (s.step cfg (.subscribe room)) := by
  rw [step]
  split
  · rename_i ha _
    have hr : Inv cfg (s.ingestStep cfg
        (.readers (s.shared.subscribe follower cfg.sinceLine).1.subscribers)) :=
      h.ingestStep fun _ => h.readers
        (mem_queue_of_eq (s.shared.queueOf_subscribe follower cfg.sinceLine))
    have hv : (s.ingestStep cfg
        (.readers (s.shared.subscribe follower cfg.sinceLine).1.subscribers)).view = s.view := by
      rw [LiveTail.ingestStep, if_pos ha]
      exact StoreInv.view_eq s _ rfl rfl
    refine ⟨{ hr.store with }, ?_⟩
    rintro t ⟨⟩
    change Tail.Follows (LiveTail.ingestStep cfg s _).view cfg.sinceLine _
    rw [hv]
    refine ⟨⟨?_, le_rfl, le_max_left _ _⟩, rfl, _, _, rfl, snapshot_of_alive h.store⟩
    exact (window_eq_nil le_rfl).symm
  · exact h

theorem owed_snapshot (h : StoreInv cfg s) (t : Tail) : t.Owed s.view
    (.snapshot (if s.alive then s.shared.snapshotSince t.cursor.nextLine else [])) := by
  split
  · exact ⟨_, snapshot_of_alive h, .inr rfl⟩
  · rename_i hd
    have hd : s.alive = false := Bool.eq_false_iff.mpr hd
    have hle := (pending_eq h).2
    rcases eq_or_lt_of_le hle with heq | hlt
    · refine ⟨s.log.length, ⟨le_rfl, s.durable, le_rfl, ?_⟩, .inr rfl⟩
      exact (window_eq_nil (heq ▸ le_max_left _ _)).symm
    · refine ⟨0, ⟨Nat.zero_le _, s.durable, le_rfl, ?_⟩, .inl ⟨hd, hlt⟩⟩
      exact (window_eq_nil (Nat.zero_le _)).symm

theorem Inv.step (h : Inv cfg s) (e : LiveEvent) : Inv cfg (s.step cfg e) := by
  cases e with
  | accept now sends batch =>
    rw [LiveTail.step]
    split_ifs with hc
    · exact h.ingestStep fun hal => h.accept now sends hal hc
    · exact h
  | finalLineCount n =>
    exact h.ingestStep fun _ => h.keep rfl rfl rfl le_rfl fun fan hf => hf
  | others subscribers =>
    exact h.ingestStep fun _ => h.readers
      (mem_queue_of_eq (s.shared.queueOf_replaceOthers follower subscribers))
  | beginCut => exact h.ingestStep fun _ => h.beginCut
  | rowCommitted i =>
    rw [LiveTail.step]
    split
    · rename_i a ha
      exact h.commitRow (mem_of_getElem? ha)
    · exact h
  | cutSucceeded now =>
    rw [LiveTail.step]
    split
    · rename_i a hal hac
      exact h.cutSucceeded now hal hac
    · exact h
  | cutFailed => exact h.ingestStep fun _ => h.cutEnded (.inl rfl)
  | cutAbandoned => exact h.ingestStep fun _ => h.cutEnded (.inr rfl)
  | sessionEnds =>
    refine h.of_store { h.store with queued := fun fan hf => ?_ }
      ⟨rfl, le_rfl, ⟨[], (append_nil _).symm⟩, fun he => ?_⟩ rfl
    · have ho := h.store.queued fan hf
      exact ⟨ho.nonempty, ho.agrees, ho.floor⟩
    · change s.alive = false at he
      simp only [view, he]
      rfl
  | subscribe room => exact h.subscribe room
  | manifest rows =>
    rw [LiveTail.step]
    split
    · rename_i t ht
      split_ifs with hr
      · refine h.tailStep fun t' ht' => ?_
        obtain rfl : t = t' := Option.some.inj (ht.symm.trans ht')
        exact ⟨rows, rfl, manifest_of_range h.store hr⟩
      · exact h
    · exact h
  | manifestFailed | woken | wakeClosed | clientGone | claim answer =>
    exact h.tailStep fun _ _ => trivial
  | recv =>
    rw [LiveTail.step]
    split
    · rename_i t fan rest ht hq
      split
      · have hta : Inv cfg (s.takeBatch cfg) := h.readers fun fan hf => by
          rw [s.shared.queueOf_dequeue follower] at hf
          exact mem_of_mem_tail hf
        refine hta.tailStep fun t' _ => ?_
        have ho := h.store.queued fan (hq ▸ mem_cons_self)
        exact ⟨ho.nonempty, ho.agrees, ho.floor⟩
      · exact h
    · exact h
  | ended =>
    rw [LiveTail.step]
    split_ifs with he
    · exact h.tailStep fun _ _ => he.1
    · exact h
  | snapshot =>
    rw [LiveTail.step]
    split
    · rename_i t ht
      refine h.tailStep fun t' ht' => ?_
      obtain rfl : t = t' := Option.some.inj (ht.symm.trans ht')
      exact owed_snapshot h.store t
    · exact h

theorem Inv.run (h : Inv cfg s) (events : List LiveEvent) : Inv cfg (s.run cfg events) := by
  induction events generalizing s with
  | nil => exact h
  | cons e events ih => exact ih (h.step e)

def manifestRange (s : LiveTail) (since : Nat) : List StoredChunk :=
  (s.rows.filter fun row => since < row.stop).mergeSort fun a b => a.firstLine ≤ b.firstLine

theorem isManifestRange_manifestRange (s : LiveTail) (since : Nat) :
    s.IsManifestRange since (s.manifestRange since) := by
  refine ⟨mergeSort_perm _ _, ?_⟩
  have hs : (s.manifestRange since).Pairwise fun a b =>
      decide (a.firstLine ≤ b.firstLine) = true :=
    pairwise_mergeSort (fun a b c => by simp only [decide_eq_true_eq]; omega)
      (fun a b => by simp only [Bool.or_eq_true, decide_eq_true_eq]; omega) _
  exact hs.imp fun h => by simpa using h

def next (s : LiveTail) : LiveEvent :=
  match s.tail with
  | none => .woken
  | some t => match t.phase with
    | .history | .backfill _ _ | .catchUp => .manifest (s.manifestRange t.cursor.nextLine)
    | .awaitSnapshot _ => .snapshot
    | .live => if s.queue = [] then .ended else .recv
    | .claim | .closed _ => .woken

def settle (cfg : FollowConfig) (s : LiveTail) : LiveTail := s.step cfg s.next

def remaining : TailPhase → Nat
  | .awaitSnapshot _ => 4
  | .history | .backfill _ _ => 3
  | .live => 2
  | .catchUp => 1
  | .claim | .closed _ => 0

theorem step_manifest (ht : s.tail = some t) :
    s.step cfg (.manifest (s.manifestRange t.cursor.nextLine)) = { s with
      tail := some (t.onManifest ((s.manifestRange t.cursor.nextLine).map StoredChunk.read)) } := by
  simp only [step, ht, if_pos (s.isManifestRange_manifestRange _), tailStep]
  rfl

theorem step_recv (h : Inv cfg s) (ht : s.tail = some t) (hp : t.phase = .live)
    (hq : s.queue ≠ []) :
    ∃ t', (s.step cfg .recv).tail = some t' ∧ (s.step cfg .recv).view = s.view ∧
      (t'.Left s.view cfg.sinceLine ∨ (∀ e, t'.phase ≠ .closed e) ∧
        5 * (s.step cfg .recv).queue.length + remaining t'.phase <
          5 * s.queue.length + remaining .live) := by
  have hf := h.reader t ht
  simp only [Tail.Follows, hp] at hf
  obtain ⟨fan, rest, hc⟩ := exists_cons_of_ne_nil hq
  have ho := h.store.queued fan (hc ▸ mem_cons_self)
  have hle : (s.takeBatch cfg).queue.length + 1 = s.queue.length := by
    have hta : (s.takeBatch cfg).queue = s.queue.tail := s.shared.queueOf_dequeue follower
    rw [hta, hc]
    rfl
  simp only [step, ht, hc, hp]
  refine ⟨t.step (.batch fan), ?_, StoreInv.view_eq s _ rfl rfl, ?_⟩
  · change Option.map _ s.tail = _
    rw [ht]
    rfl
  · change _ ∨ _ ∧ 5 * (s.takeBatch cfg).queue.length + _ < _
    rw [← hc]
    simp only [Tail.step, hp]
    split_ifs with hd
    · exact .inr ⟨by simp, by simp only [remaining]; omega⟩
    · rcases hf.1.serveBatch (valid_view h.store) hf.2 ho
        (Bool.eq_false_iff.mpr hd) with ⟨-, hl⟩ | hlef
      · exact .inr ⟨by simp [hl], by simp only [hl]; omega⟩
      · exact .inl hlef

theorem settle_spec (h : Inv cfg s) (he : s.alive = false) (ht : s.tail = some t)
    (ho : ∀ e, t.phase ≠ .closed e) (hc : t.phase ≠ .claim) :
    ∃ t', (s.settle cfg).tail = some t' ∧ (s.settle cfg).view = s.view ∧
      (t'.Left s.view cfg.sinceLine ∨ (∀ e, t'.phase ≠ .closed e) ∧
        5 * (s.settle cfg).queue.length + remaining t'.phase <
          5 * s.queue.length + remaining t.phase) := by
  have hv := valid_view h.store
  have hr := manifest_of_range h.store (s.isManifestRange_manifestRange t.cursor.nextLine)
  have hf := h.reader t ht
  unfold settle next
  simp only [ht]
  cases hp : t.phase with
  | history =>
    simp only [Tail.Follows, hp] at hf
    obtain ⟨hd, hfol, lines, stop, hsu, hs⟩ := hf
    simp only [step_manifest ht]
    refine ⟨_, rfl, rfl, ?_⟩
    rcases hd.onManifest_history hv hp hfol hsu hs hr with ⟨-, hli⟩ | hl
    · exact .inr (by simp [hli, remaining, queue, shared])
    · exact .inl hl
  | live =>
    by_cases hq : s.queue = []
    · have hst : s.step cfg .ended = { s with tail := some { t with phase := .catchUp } } := by
        simp [step, if_pos (And.intro he hq), tailStep, ht, Tail.step, hp]
      rw [if_pos hq, hst]
      exact ⟨_, rfl, rfl, .inr ⟨by simp, by simp [remaining, queue, shared]⟩⟩
    · rw [if_neg hq]
      exact step_recv h ht hp hq
  | awaitSnapshot pending =>
    simp only [step, ht, tailStep, Option.map_some, Tail.step, hp]
    exact ⟨_, rfl, rfl, .inr ⟨by simp, by simp [remaining, queue, shared]⟩⟩
  | backfill lines pending =>
    simp only [Tail.Follows, hp] at hf
    obtain ⟨hd, hb, stop, hs, hpe⟩ := hf
    simp only [step_manifest ht]
    refine ⟨_, rfl, rfl, ?_⟩
    rcases hd.onManifest_backfill hv hb hp hs hpe hr with
      ⟨-, hli | ⟨hc', -⟩⟩ | hl
    · exact .inr (by simp [hli, remaining, queue, shared])
    · exact .inr (by simp [hc', remaining, queue, shared])
    · exact .inl hl
  | catchUp =>
    simp only [Tail.Follows, hp] at hf
    simp only [step_manifest ht]
    refine ⟨_, rfl, rfl, ?_⟩
    rcases hf.1.onManifest_catchUp hv hp he hr with ⟨-, hc'⟩ | hl
    · exact .inr (by simp [hc', remaining, queue, shared])
    · exact .inl hl
  | claim => exact absurd hp hc
  | closed e => exact absurd hp (ho e)

theorem settles (h : Inv cfg s) (he : s.alive = false) (ht : s.tail = some t)
    (ho : ∀ e, t.phase ≠ .closed e) : ∃ k t', ((settle cfg)^[k] s).tail = some t' ∧
      (t'.phase = .claim ∧ t'.Follows s.view cfg.sinceLine ∨ t'.Left s.view cfg.sinceLine) := by
  induction hn : 5 * s.queue.length + remaining t.phase using Nat.strong_induction_on
    generalizing s t with
  | _ n ih =>
    by_cases hc : t.phase = .claim
    · exact ⟨0, t, ht, .inl ⟨hc, h.reader t ht⟩⟩
    · obtain ⟨t', ht', hv, hl | ⟨ho', hlt⟩⟩ := settle_spec h he ht ho hc
      · exact ⟨1, t', ht', .inr hl⟩
      · have he' : (s.settle cfg).alive = false := (congrArg StoreView.alive hv).trans he
        obtain ⟨k, t'', ht'', hend⟩ := ih _ (hn ▸ hlt) (h.step s.next) he' ht' ho' rfl
        rw [show (s.step cfg s.next).view = s.view from hv] at hend
        exact ⟨k + 1, t'', ht'', hend⟩

theorem lines_of_claim (h : StoreInv cfg s) {t : Tail} (hf : t.Follows s.view cfg.sinceLine)
    (hc : t.phase = .claim) (hdra : s.shared.pending = []) :
    t.lines = numberFrom cfg.sinceLine (s.log.drop cfg.sinceLine) := by
  simp only [Tail.Follows, hc] at hf
  obtain ⟨hd, -, hl | hle⟩ := hf
  · have := hl.2
    have := (pending_eq_nil_iff h).mp hdra
    change s.durable < s.log.length at *
    omega
  · rw [hd.lines_eq, window_of_length_le hle]
    rfl

/-- A reader that follows a session is sent the accepted lines from where it was asked to,
one after the other; no accepted gap survives a back-fill while the lines in memory are not
lost, and after a drained session the reader gets to the end of the log. -/
theorem live_tail_exactly_once (cfg : FollowConfig) (stored : StoredLog)
    (finalLineCount : Option Int) (mergedBytes : Nat) (mergedChunks : UInt32)
    (config : IngestConfig) (events : List LiveEvent) :
    let s := run cfg (start stored finalLineCount mergedBytes mergedChunks config) events
    numberFrom 0 s.log = numberFrom 0 s.stored.lines ++ s.ingest.accepted ∧ ∀ t, s.tail = some t →
      (∃ n, t.lines = numberFrom cfg.sinceLine ((s.log.drop cfg.sinceLine).take n)) ∧
      (∀ lines fan rows t', t.phase = .backfill lines (some fan) →
        (s.alive = true ∨ s.shared.pending = []) →
        (s.step cfg (.manifest rows)).tail = some t' → t'.phase ≠ .claim) ∧
      (s.alive = false → s.shared.pending = [] →
        (t.phase = .claim → t.lines = numberFrom cfg.sinceLine (s.log.drop cfg.sinceLine)) ∧
        ((∀ e, t.phase ≠ .closed e) → ∃ k t', ((settle cfg)^[k] s).tail = some t' ∧
          (t'.phase = .claim ∧ t'.lines = numberFrom cfg.sinceLine (s.log.drop cfg.sinceLine) ∨
            t'.phase = .closed (some .cancelled) ∧ t'.room = 0))) := by
  intro s
  have h : Inv cfg s :=
    (inv_start stored finalLineCount mergedBytes mergedChunks config).run events
  refine ⟨numberFrom_log h.store, fun t ht => ⟨?_, ?_, fun he hdra => ⟨?_, ?_⟩⟩⟩
  · obtain ⟨stop, hli, -⟩ := (h.reader t ht).stopped
    exact ⟨stop - cfg.sinceLine, hli⟩
  · intro lines fan rows t' hp hk hs hc
    have hlo : ¬s.view.Lost := by
      rintro ⟨hde, hlt⟩
      rcases hk with ha | hdra
      · change s.alive = false at hde
        simp [ha] at hde
      · exact hlt.ne ((pending_eq_nil_iff h.store).mp hdra)
    have hf := h.reader t ht
    simp only [Tail.Follows, hp] at hf
    obtain ⟨hd, hb, stop, hsn, hpe⟩ := hf
    simp only [step, ht] at hs
    split_ifs at hs with hr
    · simp only [tailStep, ht, Option.map_some, Option.some.injEq] at hs
      subst hs
      rcases hd.onManifest_backfill (valid_view h.store) hb hp hsn hpe
        (manifest_of_range h.store hr) with ⟨-, hliv | ⟨-, hlo'⟩⟩ | hl
      · cases hliv.symm.trans hc
      · exact hlo hlo'
      · cases hl.phase.symm.trans hc
    · rw [ht, Option.some.injEq] at hs
      rw [← hs, hp] at hc
      cases hc
  · exact fun hc => lines_of_claim h.store (h.reader t ht) hc hdra
  · intro ho
    obtain ⟨k, t', ht', ⟨hc, hf⟩ | hl⟩ := settles h he ht ho
    · exact ⟨k, t', ht', .inl ⟨hc, lines_of_claim h.store hf hc hdra⟩⟩
    · exact ⟨k, t', ht', .inr ⟨hl.phase, hl.room⟩⟩

def storedPair : StoredChunk := ⟨1, 0, "old", 0, [[97], [98]], by decide⟩

def storedLog : StoredLog where
  lines := [[97], [98]]
  rows := [storedPair]
  sessionId := 2
  agrees := by simp [storedPair, Agrees]
  bounded := by decide
  covers := by decide
  fresh := by decide

def followConfig : FollowConfig := ⟨"exec", 1, 10, fun _ => "new"⟩

/-- The queue is full for the second batch, which the third one shows; the back-fill has both from
memory before they are cut and the session ends. -/
def droppedBatch : List LiveEvent :=
  [.subscribe 9, .manifest [storedPair],
    .accept 0 (fun _ => .ok) ⟨"drv", [[99]], 2, "worker"⟩, .recv,
    .accept 1 (fun _ => .full) ⟨"drv", [[100]], 3, "worker"⟩,
    .accept 2 (fun _ => .ok) ⟨"drv", [[101]], 4, "worker"⟩, .recv, .snapshot, .manifest [],
    .beginCut, .cutSucceeded 3, .sessionEnds, .ended, .manifest []]

theorem live_tail_exactly_once_droppedBatch :
    let s := run followConfig (start storedLog none 0 0 ⟨1000, 1⟩)
    ((s (droppedBatch.take 8)).tail.map Tail.phase =
      some (.backfill [(3, [100]), (4, [101])] (some ⟨4, ⟨"drv", [[101]], 4, "worker"⟩⟩))) ∧
    (s droppedBatch).alive = false ∧ (s droppedBatch).shared.pending = [] ∧
    ∃ t, (s droppedBatch).tail = some t ∧ t.phase = .claim ∧
      t.lines = [(1, [98]), (2, [99]), (3, [100]), (4, [101])] := by
  intro s
  have he : (s droppedBatch).alive = false := by decide +kernel
  have hd : (s droppedBatch).shared.pending = [] := by decide +kernel
  have hp : (s droppedBatch).tail.map Tail.phase = some .claim := by decide +kernel
  obtain ⟨t, ht, hc⟩ := Option.map_eq_some_iff.mp hp
  obtain ⟨-, hr⟩ :=
    live_tail_exactly_once followConfig storedLog none 0 0 ⟨1000, 1⟩ droppedBatch
  refine ⟨by decide +kernel, he, hd, t, ht, hc, ?_⟩
  rw [((hr t ht).2.2 he hd).1 hc]
  decide +kernel

end LiveTail

end RioBuild.Log
