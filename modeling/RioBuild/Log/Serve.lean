import RioBuild.Log.Ingest

/-! Serving a log: history from the manifest, the live snapshot, then the subscription,
all through one cursor.  Everything the reader learns from outside (a manifest read, a
chunk object, a clone of the live buffer, a live batch, the recorded end) arrives as an
event, with any content. -/

namespace RioBuild.Log

open Lib Lib.Word List

structure TailLogChunk where
  execId : String
  lines : List Line
  firstLineNumber : Nat
  isComplete : Bool
  deriving DecidableEq, Repr

structure ChunkRef where
  s3Key : String
  firstLine : Nat
  lineCount : Nat
  fits : firstLine + lineCount ≤ i64Max
  deriving DecidableEq

/-- What fetching a chunk's object gave.  For a missing object the manifest is asked
whether its row still stands, which may fail. -/
inductive ObjectFetch
  | object (lines : List Line)
  | notFound (rowStands : Option Bool)
  | failed
  | undecodable
  deriving DecidableEq, Repr

inductive TailError
  | cancelled
  | manifestRead
  | claimRead
  | chunkFetch
  | oversizedChunk (lineCount : Nat) (s3Key : String)
  | missingObject (s3Key : String)
  | undecodableChunk (s3Key : String)
  | shortObject (missingFrom missingUntil : Nat) (s3Key : String)
  deriving DecidableEq, Repr

def TailError.message : TailError → String
  | .cancelled => "TailLog: client disconnected"
  | .manifestRead => "TailLog: manifest range read"
  | .claimRead => "AppendLog gate: completeness check"
  | .chunkFetch => "TailLog: chunk fetch failed"
  | .oversizedChunk lineCount key =>
    "TailLog: manifest row claims " ++ toString lineCount ++ " lines, past the " ++
      toString maxChunkLinesAbs ++ "-line absolute bound (corrupt row): " ++ key
  | .missingObject key =>
    "TailLog: manifest references a missing chunk object (data loss): " ++ key
  | .undecodableChunk key =>
    "TailLog: stored chunk is not decodable (corruption): " ++ key
  | .shortObject missingFrom missingUntil key =>
    "TailLog: chunk object holds fewer lines than its manifest row (data loss, lines " ++
      toString missingFrom ++ ".." ++ toString missingUntil ++ " missing): " ++ key

structure LineCursor where
  nextLine : Nat
  gapCrossed : Bool := false
  deriving DecidableEq, Repr

def LineCursor.advanceTo (c : LineCursor) (adv : CursorAdvance) : LineCursor where
  nextLine := max c.nextLine adv.target
  gapCrossed := c.gapCrossed || adv.gapCrossed

def readChunk (chunk : ChunkRef) (fetch : ObjectFetch) (remaining : List ChunkRef)
    (cursor : LineCursor) : Except TailError (List (Nat × Line) × LineCursor) :=
  let rows := remaining.map fun r => (r.firstLine, r.lineCount)
  if (visitChunk cursor.nextLine chunk.firstLine chunk.lineCount).isEmpty then .ok ([], cursor)
  else if maxChunkLinesAbs < chunk.lineCount then
    .error (.oversizedChunk chunk.lineCount chunk.s3Key)
  else match fetch with
    | .notFound none => .error .chunkFetch
    | .notFound (some false) => .ok ([], cursor)
    | .notFound (some true) =>
      match shortObjectPolicy cursor.nextLine chunk.firstLine
          (saturatingAdd chunk.firstLine chunk.lineCount) rows with
      | .serveClamped => .ok ([], cursor)
      | .unservableHole => .error (.missingObject chunk.s3Key)
    | .failed => .error .chunkFetch
    | .undecodable => .error (.undecodableChunk chunk.s3Key)
    | .object lines =>
      let objectVisit :=
        visitObject cursor.nextLine chunk.firstLine chunk.lineCount lines.length
      let refusal : Option TailError := match objectVisit.divergence with
        | some (.shortObject missingFrom missingUntil) =>
          match shortObjectPolicy cursor.nextLine missingFrom missingUntil rows with
          | .serveClamped => none
          | .unservableHole => some (.shortObject missingFrom missingUntil chunk.s3Key)
        | some (.longObject _) | none => none
      match refusal with
      | some e => .error e
      | none =>
        let cursor := cursor.advanceTo objectVisit.visit.advance
        match objectVisit.visit.yielded with
        | none => .ok ([], cursor)
        | some (yieldFrom, yieldUntil) =>
          .ok ((numberFrom chunk.firstLine lines).filter fun p =>
            yieldFrom ≤ p.1 ∧ p.1 < yieldUntil, cursor)

def tailChunkLines : Nat := 256

/-- The greedy split of `send_lines`: a message ends at a jump and at the size bound. -/
def splitFrom (execId : String) (first : Nat) (out : List Line) :
    List (Nat × Line) → List TailLogChunk
  | [] => [⟨execId, out, first, false⟩]
  | (n, line) :: lines =>
    if n = first + out.length ∧ out.length < tailChunkLines then
      splitFrom execId first (out ++ [line]) lines
    else ⟨execId, out, first, false⟩ :: splitFrom execId n [line] lines

def splitMessages (execId : String) : List (Nat × Line) → List TailLogChunk
  | [] => []
  | (n, line) :: lines => splitFrom execId n [line] lines

def runsFrom (first : Nat) (out : List Line) : List (Nat × Line) → List (Nat × List Line)
  | [] => [(first, out)]
  | (n, line) :: lines =>
    if n = first + out.length then runsFrom first (out ++ [line]) lines
    else (first, out) :: runsFrom n [line] lines

def viewRuns : List (Nat × Line) → List (Nat × List Line)
  | [] => []
  | (n, line) :: lines => runsFrom n [line] lines

inductive TailPhase
  | history
  | live
  | awaitSnapshot (pending : Option FanBatch)
  | backfill (snapshot : List (Nat × Line)) (pending : Option FanBatch)
  | catchUp
  | claim
  | closed (error : Option TailError)
  deriving DecidableEq, Repr

/-- One `serve_tail`.  The client takes `room` more messages before it goes away. -/
structure Tail where
  execId : String
  follow : Bool
  subscription : Option (List (Nat × Line))
  room : Nat
  cursor : LineCursor
  sent : List TailLogChunk := []
  wakeArmed : Bool := true
  phase : TailPhase := .history
  deriving DecidableEq, Repr

inductive TailEvent
  | manifest (rows : Option (List (ChunkRef × ObjectFetch)))
  | batch (fan : FanBatch)
  | woken
  | wakeClosed
  | ended
  | clientGone
  | snapshot (lines : List (Nat × Line))
  | claim (answer : Option (Option Int64 × List (Int × Int)))

namespace Tail

def sendAll (t : Tail) : List TailLogChunk → Tail × Option TailError
  | [] => (t, none)
  | m :: messages =>
    if t.room = 0 then (t, some .cancelled)
    else sendAll { t with room := t.room - 1, sent := t.sent ++ [m] } messages

def sendLines (t : Tail) (lines : List (Nat × Line)) : Tail × Option TailError :=
  t.sendAll (splitMessages t.execId lines)

def andThen (step : Tail × Option TailError) (next : Tail → Tail) : Tail :=
  match step with
  | (t, none) => next t
  | (t, some e) => { t with phase := .closed (some e) }

def serveManifest (t : Tail) : List (ChunkRef × ObjectFetch) → Tail × Option TailError
  | [] => (t, none)
  | (chunk, fetch) :: rest => match readChunk chunk fetch (rest.map Prod.fst) t.cursor with
    | .error e => (t, some e)
    | .ok (lines, cursor) => match { t with cursor }.sendLines lines with
      | (t, none) => t.serveManifest rest
      | (t, some e) => (t, some e)

def serveVisit (t : Tail) (first : Nat) (lines : List Line) (visit : ChunkVisit) :
    Tail × Option TailError :=
  match visit.yielded with
  | none => (t, none)
  | some (yieldFrom, yieldUntil) =>
    match t.sendLines (numberFrom yieldFrom
        ((lines.drop (yieldFrom - first)).take (yieldUntil - yieldFrom))) with
    | (t, none) => ({ t with cursor := t.cursor.advanceTo visit.advance }, none)
    | (t, some e) => (t, some e)

def serveRuns (t : Tail) : List (Nat × List Line) → Tail × Option TailError
  | [] => (t, none)
  | (first, lines) :: runs =>
    match t.serveVisit first lines (visitChunk t.cursor.nextLine first lines.length) with
    | (t, none) => t.serveRuns runs
    | (t, some e) => (t, some e)

def serveViewRuns (t : Tail) (lines : List (Nat × Line)) : Tail × Option TailError :=
  t.serveRuns (viewRuns lines)

def sendIgnored (t : Tail) (m : TailLogChunk) : Tail :=
  if t.room = 0 then t else { t with room := t.room - 1, sent := t.sent ++ [m] }

def visitBatch (t : Tail) (fan : FanBatch) : FanoutVisit :=
  visitFanoutBatch t.cursor.nextLine fan.batch.firstLineNumber fan.batch.lines.length
    fan.coverageFloor

def isDropped (v : FanoutVisit) : Bool :=
  match v.provenance with
  | some (.droppedSpan _) => true
  | some .admittedHole | none => false

def serveBatch (t : Tail) (fan : FanBatch) (visit : ChunkVisit) : Tail :=
  andThen (t.serveVisit fan.batch.firstLineNumber fan.batch.lines visit) fun t =>
    { t with phase := .live }

/-- The batch a back-fill was made for is visited again; an accepted gap that survived it
ends the read at the cursor. -/
def revisit (t : Tail) : Option FanBatch → Tail
  | none => { t with phase := .live }
  | some fan =>
    if isDropped (t.visitBatch fan) then { t with phase := .claim }
    else t.serveBatch fan (t.visitBatch fan).visit

def sealedClaim (cursor : LineCursor) (sealed : Option Int64) (chunks : List (Int × Int)) :
    FinalClaim :=
  finalClaim cursor.nextLine (sealed.map fun n => n.toUInt64.toNat)
    (match sealed with
      | some n => manifestCoversContiguously chunks n.toInt
      | none => false)
    cursor.gapCrossed

def onManifest (t : Tail) (rows : List (ChunkRef × ObjectFetch)) : Tail :=
  match t.phase with
  | .history => andThen (t.serveManifest rows) fun t =>
    match t.subscription with
    | none => { t with phase := .claim }
    | some snapshot => andThen (t.serveViewRuns snapshot) fun t =>
      if t.follow then
        { t.sendIgnored ⟨t.execId, [], t.cursor.nextLine, false⟩ with phase := .live }
      else { t with phase := .claim }
  | .backfill snapshot pending => andThen (t.serveManifest rows) fun t =>
    andThen (t.serveViewRuns snapshot) fun t => t.revisit pending
  | .catchUp => andThen (t.serveManifest rows) fun t => { t with phase := .claim }
  | _ => t

def awaitsManifest (t : Tail) : Bool :=
  match t.phase with
  | .history | .backfill _ _ | .catchUp => true
  | _ => false

def step (t : Tail) : TailEvent → Tail
  | .manifest (some rows) => t.onManifest rows
  | .manifest none =>
    if t.awaitsManifest then { t with phase := .closed (some .manifestRead) } else t
  | .batch fan => match t.phase with
    | .live =>
      if isDropped (t.visitBatch fan) then { t with phase := .awaitSnapshot (some fan) }
      else t.serveBatch fan (t.visitBatch fan).visit
    | _ => t
  | .woken => match t.phase with
    | .live => if t.wakeArmed then { t with phase := .awaitSnapshot none } else t
    | _ => t
  | .wakeClosed => match t.phase with
    | .live => { t with wakeArmed := false }
    | _ => t
  | .ended => match t.phase with
    | .live => { t with phase := .catchUp }
    | _ => t
  | .clientGone => match t.phase with
    | .live => { t with phase := .closed none }
    | _ => t
  | .snapshot lines => match t.phase with
    | .awaitSnapshot pending => { t with phase := .backfill lines pending }
    | _ => t
  | .claim answer => match t.phase, answer with
    | .claim, some (sealed, chunks) =>
      let claim := sealedClaim t.cursor sealed chunks
      { t.sendIgnored ⟨t.execId, [], claim.cursorNext, claim.complete⟩ with phase := .closed none }
    | .claim, none => { t with phase := .closed (some .claimRead) }
    | _, _ => t

def start (execId : String) (sinceLine : Nat) (follow : Bool)
    (subscription : Option (List (Nat × Line))) (room : Nat) : Tail where
  execId := execId
  follow := follow
  subscription := subscription
  room := room
  cursor := ⟨sinceLine, false⟩

def run (t : Tail) (events : List TailEvent) : Tail := events.foldl step t

def lines (t : Tail) : List (Nat × Line) :=
  t.sent.flatMap fun m => numberFrom m.firstLineNumber m.lines

end Tail

theorem lines_splitFrom :
    (splitFrom execId first out lines).flatMap (fun m => numberFrom m.firstLineNumber m.lines) =
      numberFrom first out ++ lines := by
  induction lines generalizing first out with
  | nil => simp [splitFrom]
  | cons p lines ih =>
    rw [splitFrom]
    split_ifs with hn
    · rw [ih, numberFrom_append, ← hn.1]
      simp
    · rw [flatMap_cons, ih]
      simp

@[simp] theorem lines_splitMessages :
    (splitMessages execId lines).flatMap (fun m => numberFrom m.firstLineNumber m.lines) =
      lines := by
  cases lines with
  | nil => rfl
  | cons p lines =>
    rw [splitMessages, lines_splitFrom]
    simp

theorem isComplete_splitFrom (h : m ∈ splitFrom execId first out lines) : m.isComplete = false := by
  induction lines generalizing first out with
  | nil =>
    rw [splitFrom, mem_singleton] at h
    rw [h]
  | cons p lines ih =>
    rw [splitFrom] at h
    split at h
    · exact ih h
    · rcases mem_cons.mp h with rfl | h
      · rfl
      · exact ih h

theorem isComplete_splitMessages (h : m ∈ splitMessages execId lines) : m.isComplete = false := by
  cases lines with
  | nil => simp [splitMessages] at h
  | cons p lines => exact isComplete_splitFrom h

structure IsPath (Moves : LineCursor → List (Nat × Line) → LineCursor → Prop) : Prop where
  refl : ∀ c, Moves c [] c
  trans : ∀ {c c' c'' l m}, Moves c l c' → Moves c' m c'' → Moves c (l ++ m) c''

namespace Tail

theorem sendAll_eq (t : Tail) (messages : List TailLogChunk) :
    ∃ room new, (t.sendAll messages).1 = { t with room, sent := t.sent ++ new } ∧
      new <+: messages ∧ ((t.sendAll messages).2 = none → new = messages) ∧
      ∀ e ∈ (t.sendAll messages).2, e = .cancelled ∧ room = 0 := by
  induction messages generalizing t with
  | nil => exact ⟨t.room, [], by simp [sendAll], nil_prefix, fun _ => rfl, by simp [sendAll]⟩
  | cons m messages ih =>
    rw [sendAll]
    split_ifs with hr
    · refine ⟨t.room, [], by simp, nil_prefix, by simp, ?_⟩
      rintro e ⟨⟩
      exact ⟨rfl, hr⟩
    · obtain ⟨room, new, hs, hp, ha, hf⟩ :=
        ih { t with room := t.room - 1, sent := t.sent ++ [m] }
      refine ⟨room, m :: new, ?_, cons_prefix_cons.mpr ⟨rfl, hp⟩, fun h => by rw [ha h], hf⟩
      rw [hs]
      simp

theorem cursor_sendLines (t : Tail) (lines : List (Nat × Line)) :
    (t.sendLines lines).1.cursor = t.cursor := by
  obtain ⟨room, new, hs, _⟩ := t.sendAll_eq (splitMessages t.execId lines)
  rw [sendLines, hs]

theorem cursor_serveVisit {t : Tail} {lines : List Line}
    {span : Nat × Nat} (hy : visit.yielded = some span)
    (h : (t.serveVisit first lines visit).2 = none) :
    (t.serveVisit first lines visit).1.cursor = t.cursor.advanceTo visit.advance := by
  have hc := t.cursor_sendLines
    (numberFrom span.1 ((lines.drop (span.1 - first)).take (span.2 - span.1)))
  rw [serveVisit, hy] at h ⊢
  dsimp only at h ⊢
  split at h
  · rename_i u hu
    rw [hu] at hc
    rw [← hc]
  · cases h

theorem lines_sendIgnored (t : Tail) (first : Nat) (complete : Bool) :
    (t.sendIgnored ⟨t.execId, [], first, complete⟩).lines = t.lines := by
  unfold sendIgnored
  split <;> simp [lines]

theorem cursor_sendIgnored (t : Tail) (m : TailLogChunk) : (t.sendIgnored m).cursor = t.cursor := by
  unfold sendIgnored
  split <;> rfl

theorem mem_sendIgnored {t : Tail} (h : m' ∈ (t.sendIgnored m).sent) : m' ∈ t.sent ∨ m' = m := by
  unfold sendIgnored at h
  split at h
  · exact .inl h
  · simpa using h

structure Serves (Moves : LineCursor → List (Nat × Line) → LineCursor → Prop)
    (Refuses : TailError → Prop) (t : Tail) (r : Tail × Option TailError) : Prop where
  follow : r.1.follow = t.follow
  subscription : r.1.subscription = t.subscription
  phase : r.1.phase = t.phase
  unstamped : ∃ new, r.1.sent = t.sent ++ new ∧ ∀ m ∈ new, m.isComplete = false
  moved : ∃ l c, Moves t.cursor l c ∧ ∃ delivered, delivered <+: l ∧
    r.1.lines = t.lines ++ delivered ∧ (r.2 = none → delivered = l ∧ r.1.cursor = c)
  failed : ∀ e ∈ r.2, Refuses e ∨ e = .cancelled ∧ r.1.room = 0

namespace Serves

theorem stay (hp : IsPath Moves) (t : Tail) (h : ∀ e ∈ err, Refuses e) :
    Serves Moves Refuses t (t, err) where
  follow := rfl
  subscription := rfl
  phase := rfl
  unstamped := ⟨[], by simp⟩
  moved := ⟨[], t.cursor, hp.refl _, [], nil_prefix, by simp, by simp⟩
  failed e he := .inl (h e he)

theorem trans (hpa : IsPath Moves) (h : Serves Moves Refuses t (u, none))
    (h' : Serves Moves Refuses u r) : Serves Moves Refuses t r where
  follow := h'.follow.trans h.follow
  subscription := h'.subscription.trans h.subscription
  phase := h'.phase.trans h.phase
  unstamped := by
    obtain ⟨new, hs, hn⟩ := h.unstamped
    obtain ⟨new', hs', hn'⟩ := h'.unstamped
    refine ⟨new ++ new', by rw [hs', hs, append_assoc], fun m hm => ?_⟩
    rcases mem_append.mp hm with hm | hm
    · exact hn m hm
    · exact hn' m hm
  moved := by
    obtain ⟨l, c, ha, delivered, _, hl, ho⟩ := h.moved
    obtain ⟨rfl, rfl⟩ := ho rfl
    obtain ⟨l', c', ha', delivered', hp', hl', ho'⟩ := h'.moved
    refine ⟨delivered ++ l', c', hpa.trans ha ha', delivered ++ delivered',
      prefix_append_right_inj _ |>.mpr hp', by rw [hl', hl, append_assoc], fun hno => ?_⟩
    obtain ⟨rfl, hc⟩ := ho' hno
    exact ⟨rfl, hc⟩
  failed := h'.failed

theorem send {lines : List (Nat × Line)} (h : Moves t.cursor lines c) (before : LineCursor) :
    ∃ u err, ({ t with cursor := before } : Tail).sendLines lines = (u, err) ∧ u.cursor = before ∧
      Serves Moves Refuses t ({ u with cursor := if err = none then c else u.cursor }, err) := by
  obtain ⟨room, new, hs, hp, ha, hf⟩ :=
    ({ t with cursor := before }).sendAll_eq (splitMessages t.execId lines)
  have hd : new.flatMap (fun m => numberFrom m.firstLineNumber m.lines) <+: lines := by
    obtain ⟨rest, hr⟩ := hp
    refine ⟨rest.flatMap fun m => numberFrom m.firstLineNumber m.lines, ?_⟩
    rw [← flatMap_append, hr, lines_splitMessages]
  refine ⟨_, _, Prod.mk.eta.symm, ?_, ?_⟩
  · rw [sendLines, hs]
  · rw [sendLines, hs]
    refine ⟨rfl, rfl, rfl, ⟨new, rfl, fun m hm => ?_⟩, ⟨lines, c, h, _, hd, ?_, ?_⟩, ?_⟩
    · exact isComplete_splitMessages (hp.subset hm)
    · simp [Tail.lines]
    · intro hn
      rw [ha hn, lines_splitMessages]
      exact ⟨rfl, if_pos hn⟩
    · exact fun e he => .inr (hf e he)

theorem manifest_cons {lines : List (Nat × Line)} {cursor : LineCursor}
    (hr : readChunk chunk fetch (rest.map Prod.fst) t.cursor = .ok (lines, cursor))
    (hm : Moves t.cursor lines cursor) :
    (∃ u e, t.serveManifest ((chunk, fetch) :: rest) = (u, some e) ∧
        Serves Moves Refuses t (u, some e)) ∨
      ∃ u, t.serveManifest ((chunk, fetch) :: rest) = u.serveManifest rest ∧
        u.cursor = cursor ∧ Serves Moves Refuses t (u, none) := by
  obtain ⟨u, err, hse, hc, hs⟩ := send hm cursor
  rw [serveManifest, hr]
  dsimp only
  rw [hse]
  cases err with
  | none =>
    rw [← hc] at hs
    exact .inr ⟨u, rfl, hc, hs⟩
  | some e => exact .inl ⟨u, e, rfl, hs⟩

theorem visit (hp : IsPath Moves) {lines : List Line} {visit : ChunkVisit}
    (hm : ∀ yieldFrom yieldUntil, visit.yielded = some (yieldFrom, yieldUntil) →
      Moves t.cursor (numberFrom yieldFrom
        ((lines.drop (yieldFrom - first)).take (yieldUntil - yieldFrom)))
        (t.cursor.advanceTo visit.advance)) :
    Serves Moves Refuses t (t.serveVisit first lines visit) := by
  rw [serveVisit]
  split
  · exact .stay hp t (by simp)
  · rename_i yieldFrom yieldUntil hy
    obtain ⟨u, err, hse, hc, hs⟩ :=
      send (hm yieldFrom yieldUntil hy) t.cursor
    rw [hse]
    cases err with
    | none =>
      simp only [hc]
      exact hs
    | some e => exact hs

end Serves

end Tail

end RioBuild.Log
