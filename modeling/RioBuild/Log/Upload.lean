import RioBuild.Log.IngestRun

/-! One builder's uploader against the store's ingest sessions.  Batches and acks travel
in order and are lost with their side of the stream; a chunk row that was once written
may commit at any later moment, also after its cut failed or its session ended. -/

namespace RioBuild.Log

open Lib Lib.Word List

structure AppendLogAck where
  durableThroughLine : Nat
  openCoverageNextLine : Option Nat
  deriving DecidableEq, Repr

def AppendLogAck.frontier : AppendLogAck → Option Nat
  | ⟨_, some 0⟩ => none
  | ⟨_, some (watermark + 1)⟩ => some watermark
  | ⟨durableThroughLine, none⟩ => some durableThroughLine

structure UploadTask where
  buffer : List BuildLogBatch := []
  unackedLines : Nat := 0
  lastAckedLine : Option Nat := none
  deriving DecidableEq, Repr

namespace UploadTask

def accept (u : UploadTask) (batch : BuildLogBatch) : UploadTask :=
  if batch.lines = [] then u
  else { u with
    unackedLines := u.unackedLines + batch.lines.length
    buffer := u.buffer ++ [batch] }

/-- The frames left, the lines in them and the number of frames popped; nothing when a
frame's line numbers overflow, which is a panic. -/
def popThrough (durable : Nat) :
    List BuildLogBatch → Nat → Option (List BuildLogBatch × Nat × Nat)
  | [], unacked => some ([], unacked, 0)
  | front :: rest, unacked => match checkedAdd front.firstLineNumber (front.lines.length - 1) with
    | none => none
    | some lastLine =>
      if durable < lastLine then some (front :: rest, unacked, 0)
      else (popThrough durable rest (unacked - front.lines.length)).map fun (buffer, n, popped) =>
        (buffer, n, popped + 1)

def dischargeThrough (u : UploadTask) (durable : Nat) : Option (UploadTask × Nat) :=
  (popThrough durable u.buffer u.unackedLines).map fun (buffer, unackedLines, popped) =>
    ({ buffer, unackedLines, lastAckedLine := match u.lastAckedLine with
        | some previous => if durable ≤ previous then some previous else some durable
        | none => some durable },
      popped)

def coveredFrontPrefix (u : UploadTask) : Nat :=
  match u.buffer.head?, u.lastAckedLine with
  | some front, some acked =>
    if front.firstLineNumber ≤ acked then
      min (acked - front.firstLineNumber + 1) front.lines.length
    else 0
  | _, _ => 0

def rejectPermanently (u : UploadTask) : UploadTask :=
  { u with unackedLines := u.unackedLines - u.coveredFrontPrefix, buffer := [] }

end UploadTask

structure ChunkRow where
  sessionId : Nat
  chunkSeq : UInt32
  firstLine : Nat
  lineCount : Nat
  deriving DecidableEq, Repr

def ChunkRow.interval (row : ChunkRow) : Nat × Nat := (row.firstLine, row.lineCount)

/-- `INSERT … ON CONFLICT DO NOTHING` on the key of a session and a sequence number. -/
def insertRow (rows : List ChunkRow) (row : ChunkRow) : List ChunkRow :=
  if ∃ other ∈ rows, other.sessionId = row.sessionId ∧ other.chunkSeq = row.chunkSeq then rows
  else rows ++ [row]

def rowLines (rows : List ChunkRow) : Set Nat :=
  covered ((rows.map ChunkRow.interval).map chunkSpan)

def Attempt.row (sessionId : Nat) (a : Attempt) : ChunkRow where
  sessionId := sessionId
  chunkSeq := a.seq
  firstLine := a.firstLine
  lineCount := a.lines.length

structure UploadSystem where
  given : Nat := 0
  uploader : UploadTask := {}
  panicked : Bool := false
  rejected : Bool := false
  connected : Bool := false
  sent : Nat := 0
  acks : List AppendLogAck := []
  inbound : List BuildLogBatch := []
  ingest : Option IngestRun := none
  opened : Nat := 0
  rows : List ChunkRow := []
  ended : List ChunkRow := []
  acked : List AppendLogAck := []

inductive UploadEvent
  | give (batch : BuildLogBatch)
  | openSession (finalLineCount : Option Int) (mergedBytes : Nat) (mergedChunks : UInt32)
      (config : IngestConfig)
  | transmit
  | keepalive (derivationPath : String)
  | arrive (now : Nat) (sends : Nat → TrySend) (delivered : Bool)
  | dropInbound
  | finalLineCount (n : Nat)
  | beginCut
  | rowCommitted (i : Nat)
  | cutSucceeded (now : Nat) (delivered : Bool)
  | cutFailed
  | cutAbandoned
  | deliverAck
  | sessionEnds
  | disconnect
  | rejectPermanently

namespace UploadSystem

def attemptRows (s : UploadSystem) : List ChunkRow :=
  match s.ingest with
  | some r => r.attempts.map (Attempt.row s.opened)
  | none => []

def attempted (s : UploadSystem) : List ChunkRow := s.ended ++ s.attemptRows

def sendAck (s : UploadSystem) (delivered : Bool) : Option Nat → UploadSystem
  | none => s
  | some v =>
    { s with
      acked := s.acked ++ [⟨v, none⟩]
      acks := if s.connected ∧ delivered then s.acks ++ [⟨v, none⟩] else s.acks }

def outcomeAck (session : IngestSession) (now : Nat) (sends : Nat → TrySend)
    (batch : BuildLogBatch) : Option Nat :=
  match session.accept now sends batch with
  | .ok (_, outcome) => outcome.ack
  | .error _ => none

def openIngest (s : UploadSystem) (finalLineCount : Option Int) (mergedBytes : Nat)
    (mergedChunks : UInt32) (config : IngestConfig) : IngestSession :=
  .new ⟨finalLineCount, mergedBytes, mergedChunks,
    .fromIntervals (s.rows.map ChunkRow.interval)⟩ config

def openAcks (session : IngestSession) : List AppendLogAck :=
  match session.durableFrontier with
  | some frontier => [⟨frontier, some session.openCoverageNextLine⟩]
  | none => []

def step (maxChunks : UInt32) (s : UploadSystem) : UploadEvent → UploadSystem
  | .give batch =>
    if batch.lines ≠ [] ∧ batch.firstLineNumber = s.given ∧
        s.given + batch.lines.length ≤ u64Max + 1 then
      { s with
        given := s.given + batch.lines.length
        uploader := if s.rejected then s.uploader else s.uploader.accept batch }
    else s
  | .openSession finalLineCount mergedBytes mergedChunks config =>
    if s.connected = false ∧ s.ingest = none then
      let session := s.openIngest finalLineCount mergedBytes mergedChunks config
      { s with
        connected := true
        sent := 0
        inbound := []
        acks := openAcks session
        acked := s.acked ++ openAcks session
        opened := s.opened + 1
        ingest := some ⟨session, none, [], [], []⟩ }
    else s
  | .transmit => match s.connected, s.uploader.buffer[s.sent]? with
    | true, some batch => { s with inbound := s.inbound ++ [batch], sent := s.sent + 1 }
    | _, _ => s
  | .keepalive derivationPath =>
    if s.connected ∧ s.sent = s.uploader.buffer.length then
      { s with inbound := s.inbound ++ [⟨derivationPath, [], 0, ""⟩] }
    else s
  | .arrive now sends delivered => match s.ingest, s.inbound with
    | some r, batch :: inbound =>
      { s with ingest := some (r.step maxChunks (.accept now sends batch)), inbound }.sendAck
        delivered (outcomeAck r.session now sends batch)
    | _, _ => s
  | .dropInbound => { s with inbound := s.inbound.tail }
  | .finalLineCount n => { s with ingest := s.ingest.map (·.step maxChunks (.finalLineCount n)) }
  | .beginCut => { s with ingest := s.ingest.map (·.step maxChunks .beginCut) }
  | .rowCommitted i => match s.attempted[i]? with
    | some row => { s with rows := insertRow s.rows row }
    | none => s
  | .cutSucceeded now delivered => match s.ingest with
    | some r => match r.active with
      | some a =>
        { s with
          rows := insertRow s.rows (a.row s.opened)
          ingest := some (r.step maxChunks (.cutSucceeded now)) }.sendAck
            delivered (r.session.finishCut now a).2
      | none => s
    | none => s
  | .cutFailed => { s with ingest := s.ingest.map (·.step maxChunks .cutFailed) }
  | .cutAbandoned => { s with ingest := s.ingest.map (·.step maxChunks .cutAbandoned) }
  | .deliverAck => match s.acks with
    | [] => s
    | ack :: acks => match ack.frontier with
      | none => { s with acks }
      | some durable => match s.uploader.dischargeThrough durable with
        | some (uploader, popped) => { s with acks, uploader, sent := s.sent - popped }
        | none => { s with panicked := true }
  | .sessionEnds => { s with ended := s.attempted, ingest := none, inbound := [] }
  | .disconnect => { s with connected := false, acks := [] }
  | .rejectPermanently =>
    { s with
      rejected := true
      uploader := s.uploader.rejectPermanently
      connected := false
      acks := [] }

def run (maxChunks : UInt32) (events : List UploadEvent) : UploadSystem :=
  events.foldl (step maxChunks) {}

end UploadSystem

theorem rowLines_subset_insertRow (rows : List ChunkRow) (row : ChunkRow) :
    rowLines rows ⊆ rowLines (insertRow rows row) := by
  unfold insertRow
  split
  · exact subset_rfl
  · rw [rowLines, rowLines, map_append, map_append, covered_append]
    exact Set.subset_union_left

theorem mem_rowLines_insertRow (row : ChunkRow)
    (hk : ∀ other ∈ rows, other.sessionId = row.sessionId → other.chunkSeq = row.chunkSeq →
      other = row) :
    Set.Ico row.firstLine (row.firstLine + row.lineCount) ⊆ rowLines (insertRow rows row) := by
  intro l hl
  unfold insertRow
  split
  · rename_i hold
    obtain ⟨other, ho, hi, hs⟩ := hold
    obtain rfl := hk other ho hi hs
    exact ⟨chunkSpan other.interval, mem_map_of_mem (mem_map_of_mem ho), hl⟩
  · exact ⟨chunkSpan row.interval, mem_map_of_mem (mem_map_of_mem (by simp)), hl⟩

theorem mem_insertRow (h : other ∈ insertRow rows row) : other ∈ rows ∨ other = row := by
  unfold insertRow at h
  split at h
  · exact .inl h
  · simpa using h

namespace IngestRun

variable {r : IngestRun}

theorem Inv.attempt_fits (h : Inv seed config r) (ha : a ∈ r.attempts) :
    a.firstLine + a.lines.length ≤ u64Max := by
  obtain ⟨hne, hr⟩ := h.written a ha
  have hp : 0 < a.lines.length := length_pos_iff.mpr hne
  obtain ⟨line, hl⟩ : ∃ line, a.lines[a.lines.length - 1]? = some line :=
    ⟨_, getElem?_eq_getElem (by omega)⟩
  have hm : (a.firstLine + (a.lines.length - 1), line) ∈ a.numbered :=
    mem_numberFrom.mpr ⟨by omega, by rwa [Nat.add_sub_cancel_left]⟩
  have hla := h.representable _ (hr.subset hm)
  have := i64Max_le
  omega

theorem Inv.attempt_unique (h : Inv seed config r) (ha : a ∈ r.attempts) (hb : b ∈ r.attempts)
    (hs : a.seq = b.seq) : a = b :=
 inj_on_of_nodup_map h.nodup_seq ha hb hs

theorem covered_step (maxChunks : UInt32) (r : IngestRun) (e : IngestEvent)
    (he : ∀ now, e ≠ .cutSucceeded now) :
    (r.step maxChunks e).session.covered = r.session.covered := by
  cases e with
  | accept now sends batch =>
    rw [IngestRun.step]
    rcases r.session.accept_cases now sends batch with ⟨e, ha, _⟩ | ⟨hw, o, ha, _⟩ |
      ⟨b, stop, ha, _⟩
    · simp [ha]
    · simp [ha]
    · simp [ha, IngestSession.append]
  | finalLineCount n | readers subscribers => rfl
  | beginCut =>
    rw [IngestRun.step, IngestSession.beginCut]
    split
    · split <;> rfl
    · rfl
  | cutSucceeded now => exact absurd rfl (he now)
  | cutFailed | cutAbandoned =>
    rw [IngestRun.step]
    split <;> rfl

theorem attempts_step (maxChunks : UInt32) (r : IngestRun) (e : IngestEvent) :
    ∀ a ∈ r.attempts, a ∈ (r.step maxChunks e).attempts := by
  intro a ha
  cases e with
  | accept now sends batch | cutSucceeded now | cutFailed | cutAbandoned =>
    rw [IngestRun.step]
    split <;> exact ha
  | finalLineCount n | readers subscribers => exact ha
  | beginCut =>
    rw [IngestRun.step]
    split
    · exact mem_append_left _ ha
    · exact ha

end IngestRun

def AppendLogAck.Valid (lines : Set Nat) (ack : AppendLogAck) : Prop :=
  (∀ l ≤ ack.durableThroughLine, l ∈ lines) ∧
    ∀ watermark ∈ ack.openCoverageNextLine, ∀ l < watermark, l ∈ lines

theorem AppendLogAck.Valid.mono {ack : AppendLogAck} (h : ack.Valid lines) (hs : lines ⊆ lines') :
    ack.Valid lines' :=
  ⟨fun l hl => hs (h.1 l hl), fun w hw l hl => hs (h.2 w hw l hl)⟩

theorem AppendLogAck.Valid.frontier {ack : AppendLogAck} (h : ack.Valid lines)
    (hv : ack.frontier = some v) : ∀ l ≤ v, l ∈ lines := by
  unfold AppendLogAck.frontier at hv
  split at hv
  · cases hv
  · injection hv with hv
    exact fun l hl => h.2 _ rfl l (by omega)
  · injection hv with hv
    subst hv
    exact h.1

def BuildLogBatch.Holds (b : BuildLogBatch) (l : Nat) : Prop :=
  b.firstLineNumber ≤ l ∧ l < b.firstLineNumber + b.lines.length

theorem UploadTask.popThrough_spec (durable : Nat) {buffer : List BuildLogBatch} (unacked : Nat)
    (hf : ∀ b ∈ buffer, b.lines ≠ [] ∧ b.firstLineNumber + b.lines.length ≤ u64Max + 1) :
    ∃ left n popped, popThrough durable buffer unacked = some (left, n, popped) ∧
      (∀ b ∈ left, b ∈ buffer) ∧ ∀ b ∈ buffer, b ∈ left ∨ ∀ l, b.Holds l → l ≤ durable := by
  induction buffer generalizing unacked with
  | nil => exact ⟨[], unacked, 0, rfl, by simp, by simp⟩
  | cons front rest ih =>
    obtain ⟨hne, hle⟩ := hf front (by simp)
    have hpo : 0 < front.lines.length := length_pos_iff.mpr hne
    have hla : checkedAdd front.firstLineNumber (front.lines.length - 1) =
        some (front.firstLineNumber + (front.lines.length - 1)) :=
      checkedAdd_eq_some.mpr ⟨rfl, by omega⟩
    simp only [popThrough, hla]
    split_ifs with hc
    · exact ⟨_, _, _, rfl, fun b hb => hb, fun b hb => .inl hb⟩
    · obtain ⟨left, n, popped, hp, hs, hsp⟩ := ih (unacked - front.lines.length)
        (fun b hb => hf b (by simp [hb]))
      refine ⟨left, n, popped + 1, by simp [hp], fun b hb => by simp [hs b hb], ?_⟩
      intro b hb
      rcases mem_cons.mp hb with rfl | hb
      · refine .inr fun l hl => ?_
        have := hl.2
        omega
      · exact hsp b hb

namespace UploadSystem

structure Inv (s : UploadSystem) : Prop where
  endedIds : ∀ row ∈ s.ended, row.sessionId ≤ s.opened ∧
    (s.ingest ≠ none → row.sessionId < s.opened)
  endedFits : ∀ row ∈ s.ended, row.firstLine + row.lineCount ≤ u64Max
  inserted : ∀ row ∈ s.rows, row ∈ s.attempted
  session : ∀ r ∈ s.ingest, (∃ seed config, r.Inv seed config) ∧
    ∃ lines, r.session.covered.Denotes lines ∧ lines ⊆ rowLines s.rows
  acked : ∀ ack ∈ s.acked, ack.Valid (rowLines s.rows)
  queued : ∀ ack ∈ s.acks, ack ∈ s.acked
  frames : ∀ b ∈ s.uploader.buffer, b.lines ≠ [] ∧ b.firstLineNumber + b.lines.length ≤ u64Max + 1
  kept : s.rejected = false → ∀ l < s.given,
    (∃ b ∈ s.uploader.buffer, b.Holds l) ∨ l ∈ rowLines s.rows
  running : s.panicked = false

namespace Inv

variable {s : UploadSystem} {r : IngestRun}

theorem initial : Inv {} := by
  constructor <;> simp

theorem ingest_step (h : Inv s) (hr : s.ingest = some r) (e : IngestEvent)
    (he : ∀ now, e ≠ .cutSucceeded now) : Inv { s with ingest := some (r.step maxChunks e) } where
  __ := h
  endedIds := fun row hrw => ⟨(h.endedIds row hrw).1, fun _ =>
    (h.endedIds row hrw).2 (by simp [hr])⟩
  inserted := by
    intro row hrw
    have := h.inserted row hrw
    simp only [attempted, attemptRows, hr, mem_append, mem_map] at this ⊢
    rcases this with hrw | ⟨a, ha, rfl⟩
    · exact .inl hrw
    · exact .inr ⟨a, r.attempts_step maxChunks e a ha, rfl⟩
  session := by
    rintro r' ⟨⟩
    obtain ⟨⟨seed, config, hi⟩, lines, hd, hs⟩ := h.session r hr
    refine ⟨⟨seed, config, hi.step e⟩, lines, ?_, hs⟩
    rw [IngestRun.covered_step maxChunks r e he]
    exact hd

theorem ingest_map (h : Inv s) (e : IngestEvent) (he : ∀ now, e ≠ .cutSucceeded now) :
    Inv { s with ingest := s.ingest.map (·.step maxChunks e) } := by
  cases hr : s.ingest with
  | none =>
    rw [Option.map_none, ← hr]
    exact h
  | some r => exact h.ingest_step hr e he

theorem sendAck (h : Inv s) (delivered : Bool)
    (hv : ∀ n ∈ v, ∀ l ≤ n, l ∈ rowLines s.rows) : Inv (s.sendAck delivered v) := by
  cases v with
  | none => exact h
  | some n =>
    exact
      { endedIds := h.endedIds
        endedFits := h.endedFits
        inserted := h.inserted
        session := h.session
        acked := by
          intro ack ha
          rcases mem_append.mp ha with ha | ha
          · exact h.acked ack ha
          · rw [mem_singleton.mp ha]
            exact ⟨hv n rfl, by simp⟩
        queued := by
          intro ack ha
          simp only [UploadSystem.sendAck] at ha ⊢
          split at ha
          · rcases mem_append.mp ha with ha | ha
            · exact mem_append_left _ (h.queued ack ha)
            · exact mem_append_right _ ha
          · exact mem_append_left _ (h.queued ack ha)
        frames := h.frames
        kept := h.kept
        running := h.running }

theorem mem_rowLines_of_le_frontier (session : IngestSession) {lines rows : Set Nat}
    (hd : session.covered.Denotes lines) (hs : lines ⊆ rows)
    (hv : ∃ frontier, session.durableFrontier = some frontier ∧ v ≤ frontier) :
    ∀ l ≤ v, l ∈ rows := by
  obtain ⟨frontier, hf, hle⟩ := hv
  exact fun l hl => hs (hd.mem_of_le_frontier hf (hl.trans hle))

theorem outcomeAck_committed (h : Inv s) (hr : s.ingest = some r) (now : Nat)
    (sends : Nat → TrySend) (batch : BuildLogBatch) :
    ∀ v ∈ outcomeAck r.session now sends batch, ∀ l ≤ v, l ∈ rowLines s.rows := by
  obtain ⟨_, lines, hd, hs⟩ := h.session r hr
  intro v hv
  rw [outcomeAck] at hv
  rcases r.session.accept_cases now sends batch with ⟨e, ha, _⟩ | ⟨hw, o, ha, _, _, hac⟩ |
    ⟨b, stop, ha, _⟩
  · simp [ha] at hv
  · simp only [ha] at hv
    exact mem_rowLines_of_le_frontier r.session hd hs (hac v hv)
  · simp [ha, AcceptOutcome.ack] at hv

theorem insertRow (h : Inv s) (hrw : row ∈ s.attempted) :
    Inv { s with rows := insertRow s.rows row } := by
  have hm := rowLines_subset_insertRow s.rows row
  exact
    { endedIds := h.endedIds
      endedFits := h.endedFits
      inserted := by
        intro other ho
        rcases mem_insertRow ho with ho | rfl
        · exact h.inserted other ho
        · exact hrw
      session := by
        intro r hr
        obtain ⟨hi, lines, hd, hs⟩ := h.session r hr
        exact ⟨hi, lines, hd, hs.trans hm⟩
      acked := fun ack ha => (h.acked ack ha).mono hm
      queued := h.queued
      frames := h.frames
      kept := fun hre l hl => (h.kept hre l hl).imp_right fun hin => hm hin
      running := h.running }

theorem mem_attempted (hr : s.ingest = some r) (ha : a ∈ r.attempts) :
    a.row s.opened ∈ s.attempted := by
  rw [attempted, attemptRows, hr]
  exact mem_append_right _ (mem_map_of_mem ha)

theorem key_unique (h : Inv s) (hr : s.ingest = some r) (ha : a ∈ r.attempts)
    (ho : other ∈ s.rows) (hid : other.sessionId = s.opened) (hs : other.chunkSeq = a.seq) :
    other = a.row s.opened := by
  obtain ⟨⟨seed, config, hi⟩, _⟩ := h.session r hr
  have := h.inserted other ho
  rw [attempted, attemptRows, hr] at this
  rcases mem_append.mp this with he | hc
  · have := (h.endedIds other he).2 (by simp [hr])
    omega
  · obtain ⟨b, hb, rfl⟩ := mem_map.mp hc
    rw [hi.attempt_unique hb ha hs]

theorem cutSucceeded (h : Inv s) (now : Nat) (delivered : Bool) :
    Inv (s.step maxChunks (.cutSucceeded now delivered)) := by
  rw [step]
  cases hr : s.ingest with
  | none => exact h
  | some r =>
    cases hac : r.active with
    | none => simpa [hac] using h
    | some a =>
      obtain ⟨⟨seed, config, hi⟩, lines, hd, hs⟩ := h.session r hr
      have ha : a ∈ r.attempts := (hi.staged a hac).2
      have hrw := h.insertRow (mem_attempted hr ha)
      have hn : Set.Ico a.firstLine (a.firstLine + a.lines.length) ⊆
          rowLines (RioBuild.Log.insertRow s.rows (a.row s.opened)) :=
        mem_rowLines_insertRow (a.row s.opened)
          fun other ho hid hse => h.key_unique hr ha ho hid hse
      have hd' := hd.insert (hi.attempt_fits ha)
      have hs' := Set.union_subset (hs.trans (rowLines_subset_insertRow s.rows (a.row s.opened))) hn
      have hst : r.step maxChunks (.cutSucceeded now) =
          { r with
            session := (r.session.finishCut now a).1
            active := none
            committed := r.committed ++ [a] } := by
        rw [IngestRun.step]
        simp [hac]
      simp only [hac]
      apply sendAck
      · exact
          { endedIds := fun row hrw => ⟨(h.endedIds row hrw).1, fun _ =>
              (h.endedIds row hrw).2 (by simp [hr])⟩
            endedFits := h.endedFits
            inserted := by
              intro other ho
              have := hrw.inserted other ho
              simp only [hr, hst] at this ⊢
              exact this
            session := by
              rintro r' ⟨⟩
              refine ⟨⟨seed, config, hi.step _⟩, _, ?_, hs'⟩
              rw [hst]
              exact hd'
            acked := hrw.acked
            queued := h.queued
            frames := h.frames
            kept := hrw.kept
            running := h.running }
      · intro v hv
        exact mem_rowLines_of_le_frontier (r.session.finishCut now a).1 hd' hs'
          (IngestSession.le_frontier_of_ack hv)

theorem rows_ended (h : Inv s) (hc : s.ingest = none) : ∀ row ∈ s.rows, row ∈ s.ended := by
  intro row hr
  have := h.inserted row hr
  rwa [attempted, attemptRows, hc, append_nil] at this

theorem denotes_openIngest (h : Inv s) (hcl : s.ingest = none) (finalLineCount : Option Int)
    (mergedBytes : Nat) (mergedChunks : UInt32) (config : IngestConfig) :
    let session := s.openIngest finalLineCount mergedBytes mergedChunks config
    session.covered.Denotes (rowLines s.rows) ∧
      session.sessionFloor = session.covered.contiguousPrefixEnd := by
  intro session
  have hcv : session.covered = .fromIntervals (s.rows.map ChunkRow.interval) := by
    simp only [session, openIngest, IngestSession.new]
    split <;> rfl
  have hf : session.sessionFloor = session.covered.contiguousPrefixEnd := by
    simp only [session, openIngest, IngestSession.new]
    split <;> rfl
  refine ⟨?_, hf⟩
  rw [hcv]
  refine CoverageMap.denotes_fromIntervals fun c hc => ?_
  obtain ⟨row, hr, rfl⟩ := mem_map.mp hc
  exact h.endedFits row (h.rows_ended hcl row hr)

theorem valid_openAcks {session : IngestSession} (hd : session.covered.Denotes lines)
    (hf : session.sessionFloor = session.covered.contiguousPrefixEnd) :
    ∀ ack ∈ openAcks session, ack.Valid lines := by
  intro ack ha
  rw [openAcks] at ha
  split at ha
  · rename_i frontier hfr
    rw [mem_singleton.mp ha]
    refine ⟨fun l hl => hd.mem_of_le_frontier hfr hl, ?_⟩
    rintro w ⟨⟩ l hl
    rw [IngestSession.openCoverageNextLine, hf] at hl
    exact (hd.lt_contiguousPrefixEnd_iff l).mp hl l le_rfl
  · simp at ha

section

variable (h : Inv s)
include h

theorem openSession (hc : s.ingest = none) (finalLineCount : Option Int)
    (mergedBytes : Nat) (mergedChunks : UInt32) (config : IngestConfig) :
    let session := s.openIngest finalLineCount mergedBytes mergedChunks config
    Inv { s with
      connected := true
      sent := 0
      inbound := []
      acks := openAcks session
      acked := s.acked ++ openAcks session
      opened := s.opened + 1
      ingest := some ⟨session, none, [], [], []⟩ } := by
  intro session
  obtain ⟨hd, hf⟩ :=
    h.denotes_openIngest hc finalLineCount mergedBytes mergedChunks config
  exact
    { endedIds := fun row hr => by
        have := (h.endedIds row hr).1
        exact ⟨by simp only; omega, fun _ => by simp only; omega⟩
      endedFits := h.endedFits
      inserted := fun row hr => mem_append_left _ (h.rows_ended hc row hr)
      session := by
        rintro r ⟨⟩
        exact ⟨⟨_, _, IngestRun.inv_start _ config⟩, _, hd, subset_rfl⟩
      acked := by
        intro ack ha
        rcases mem_append.mp ha with ha | ha
        · exact h.acked ack ha
        · exact valid_openAcks hd hf ack ha
      queued := fun ack ha => mem_append_right _ ha
      frames := h.frames
      kept := h.kept
      running := h.running }

theorem deliverAck : Inv (s.step maxChunks .deliverAck) := by
  rw [step]
  cases hac : s.acks with
  | nil => exact h
  | cons ack acks =>
    have hq : ∀ a ∈ acks, a ∈ s.acked := fun a ha => h.queued a (by simp [hac, ha])
    cases hv : ack.frontier with
    | none =>
      simp only [hv]
      exact { h with queued := hq }
    | some durable =>
      have hc := (h.acked ack (h.queued ack (by simp [hac]))).frontier hv
      obtain ⟨left, n, popped, hp, hs, hsp⟩ :=
        UploadTask.popThrough_spec durable s.uploader.unackedLines h.frames
      simp only [hv, UploadTask.dischargeThrough, hp]
      exact
        { h with
          queued := hq
          frames := fun b hb => h.frames b (hs b hb)
          kept := by
            intro hr l hl
            rcases h.kept hr l hl with ⟨b, hb, hi⟩ | hi
            · rcases hsp b hb with hle | hd
              · exact .inl ⟨b, hle, hi⟩
              · exact .inr (hc l (hd l hi))
            · exact .inr hi }

theorem give (batch : BuildLogBatch) : Inv (s.step maxChunks (.give batch)) := by
  rw [step]
  split
  · rename_i hb
    obtain ⟨hne, hf, hfi⟩ := hb
    cases hr : s.rejected with
    | true => exact { h with kept := by simp }
    | false =>
      simp only [UploadTask.accept, if_neg hne]
      exact
        { h with
          frames := by
            intro b hb
            rcases mem_append.mp hb with hb | hb
            · exact h.frames b hb
            · rw [mem_singleton.mp hb]
              exact ⟨hne, by omega⟩
          kept := by
            intro _ l hl
            by_cases ho : l < s.given
            · refine (h.kept hr l ho).imp_left ?_
              rintro ⟨b, hb, hi⟩
              exact ⟨b, mem_append_left _ hb, hi⟩
            · refine .inl ⟨batch, by simp, ?_, ?_⟩
              · omega
              · simp only at hl
                omega }
  · exact h

theorem sessionEnds : Inv (s.step maxChunks .sessionEnds) where
  __ := h
  endedIds := by
    intro row hrw
    refine ⟨?_, by simp [step]⟩
    rcases mem_append.mp hrw with hrw | hrw
    · exact (h.endedIds row hrw).1
    · rw [attemptRows] at hrw
      split at hrw
      · obtain ⟨a, _, rfl⟩ := mem_map.mp hrw
        exact le_rfl
      · simp at hrw
  endedFits := by
    intro row hrw
    rcases mem_append.mp hrw with hrw | hrw
    · exact h.endedFits row hrw
    · rw [attemptRows] at hrw
      split at hrw
      · rename_i r hr
        obtain ⟨⟨seed, config, hi⟩, _⟩ := h.session r hr
        obtain ⟨a, ha, rfl⟩ := mem_map.mp hrw
        exact hi.attempt_fits ha
      · simp at hrw
  inserted := fun row hrw => mem_append_left _ (h.inserted row hrw)
  session := by simp [step]

theorem step (e : UploadEvent) : Inv (s.step maxChunks e) := by
  cases e with
  | give batch => exact h.give batch
  | openSession finalLineCount mergedBytes mergedChunks config =>
    rw [UploadSystem.step]
    split_ifs with hc
    · exact h.openSession hc.2 finalLineCount mergedBytes mergedChunks config
    · exact h
  | transmit | keepalive path =>
    rw [UploadSystem.step]
    split
    · exact { h with }
    · exact h
  | arrive now sends delivered =>
    rw [UploadSystem.step]
    split
    · rename_i r batch inbound hr hi
      have hs : Inv { s with
          ingest := some (r.step maxChunks (.accept now sends batch)), inbound } :=
        { h.ingest_step hr (.accept now sends batch) (by simp) with }
      exact hs.sendAck delivered (h.outcomeAck_committed hr now sends batch)
    · exact h
  | dropInbound => exact { h with }
  | finalLineCount n | beginCut | cutFailed | cutAbandoned => exact h.ingest_map _ (by simp)
  | rowCommitted i =>
    rw [UploadSystem.step]
    split
    · rename_i row hrw
      exact h.insertRow (mem_of_getElem? hrw)
    · exact h
  | cutSucceeded now delivered => exact h.cutSucceeded now delivered
  | deliverAck => exact h.deliverAck
  | sessionEnds => exact h.sessionEnds
  | disconnect => exact { h with queued := by simp [UploadSystem.step] }
  | rejectPermanently =>
    exact
      { h with
        queued := by simp [UploadSystem.step]
        frames := by simp [UploadSystem.step, UploadTask.rejectPermanently]
        kept := by simp [UploadSystem.step] }

theorem foldl (events : List UploadEvent) : Inv (events.foldl (UploadSystem.step maxChunks) s) := by
  induction events generalizing s with
  | nil => exact h
  | cons e events ih => exact ih (h.step e)

end

end Inv

/-- The store acknowledges only lines of committed chunks, so the builder discards no
line that is not in one. -/
theorem upload_never_loses_a_line (maxChunks : UInt32) (events : List UploadEvent) :
    let s := run maxChunks events
    (∀ ack ∈ s.acked, (∀ l ≤ ack.durableThroughLine, l ∈ rowLines s.rows) ∧
      ∀ watermark ∈ ack.openCoverageNextLine, ∀ l < watermark, l ∈ rowLines s.rows) ∧
      (s.rejected = false → ∀ l < s.given,
        (∃ b ∈ s.uploader.buffer, b.firstLineNumber ≤ l ∧
          l < b.firstLineNumber + b.lines.length) ∨ l ∈ rowLines s.rows) ∧
      s.panicked = false := by
  intro s
  have h : Inv s := Inv.initial.foldl events
  exact ⟨h.acked, h.kept, h.running⟩

end UploadSystem

end RioBuild.Log
