import RioBuild.Log.Serve

/-! The gateway's relay of one execution's log to a build's output.  Streams of chunks are
opened one after the other; a chunk past a hole is withheld for one more open before the
hole is disclosed with a marker.  The output channel is open and has room, so that a send
is one step. -/

namespace RioBuild.Log

open Lib Lib.Word

inductive RelayMessage
  | lines (first : Nat) (lines : List Line)
  | gap (gapFrom gapUntil : Nat)
  | truncation (start : Nat)
  | degraded (start elapsed : Nat) (lane : String)
  deriving DecidableEq, Repr

namespace RelayMessage

def span : RelayMessage → Option (Nat × Nat)
  | .lines first ls => some (first, first + ls.length)
  | .gap gapFrom gapUntil => some (gapFrom, gapUntil)
  | .truncation _ | .degraded .. => none

def relayed : RelayMessage → List (Nat × Line)
  | .lines first ls => numberFrom first ls
  | _ => []

end RelayMessage

inductive RelayEntry
  | received (watermark : Nat) (lines : List (Nat × Line))
  | sent (message : RelayMessage)
  deriving DecidableEq, Repr

structure PendingGap where
  gapFrom : Nat
  gapUntil : Nat
  withheldFrom : Nat
  withheld : List Line
  nextLine : Nat
  deriving DecidableEq, Repr

/-- A taken gap, which discloses on drop what has not been delivered. -/
structure ArmedGap where
  hole : Option (Nat × Nat)
  linesFrom : Nat
  lines : List Line
  nextLine : Nat
  deriving DecidableEq, Repr

def PendingGap.arm (p : PendingGap) : ArmedGap where
  hole := some (p.gapFrom, p.gapUntil)
  linesFrom := p.withheldFrom
  lines := p.withheld
  nextLine := p.nextLine

namespace ArmedGap

def suppressHole (a : ArmedGap) : ArmedGap := { a with hole := none }

def suppressHoleUntil (a : ArmedGap) (stop : Nat) : ArmedGap :=
  match a.hole with
  | some (start, holeUntil) =>
    { a with hole := if holeUntil ≤ stop then none else some (max start stop, holeUntil) }
  | none => a

def discloseHoleUntil (a : ArmedGap) (stop : Nat) : ArmedGap × List RelayMessage :=
  match a.hole with
  | none => (a, [])
  | some (start, holeUntil) =>
    let stop := min stop holeUntil
    if stop ≤ start then (a, [])
    else
      ({ a with hole := if stop < holeUntil then some (stop, holeUntil) else none },
        [.gap start stop])

def noteDelivered (a : ArmedGap) (next : Nat) : ArmedGap :=
  let hole := match a.hole with
    | some (start, stop) => if stop ≤ next then none else some (max start next, stop)
    | none => none
  if a.linesFrom < next then
    { a with hole, lines := a.lines.drop (next - a.linesFrom), linesFrom := next }
  else { a with hole }

def onDrop (a : ArmedGap) : List RelayMessage :=
  (match a.hole with
    | some (start, stop) => [.gap start stop]
    | none => []) ++
  if a.lines = [] then [] else [.lines a.linesFrom a.lines]

end ArmedGap

namespace TailLogChunk

def numbered (c : TailLogChunk) : List (Nat × Line) := numberFrom c.firstLineNumber c.lines

def slice (c : TailLogChunk) (yieldFrom yieldUntil : Nat) : List Line :=
  (c.lines.drop (yieldFrom - c.firstLineNumber)).take (yieldUntil - yieldFrom)

end TailLogChunk

structure RelayAccount where
  lastRelayed : Option Nat := none
  pendingGap : Option PendingGap := none
  acceptedGapFloor : Option Nat := none
  trace : List RelayEntry := []
  deriving DecidableEq, Repr

inductive Sighting
  | first | sameSpan | divergent
  deriving DecidableEq, Repr

inductive ServeHeal
  | untouched
  | shrunk (floor : Nat)
  | healed (armed : ArmedGap)
  deriving DecidableEq, Repr

inductive ChunkPass
  | done (o : RelayAccount)
  | gapEnds (o : RelayAccount)
  | again (o : RelayAccount)
  deriving DecidableEq, Repr

def sinceLine : Option Nat → Nat
  | some n => saturatingAdd n 1
  | none => 0

namespace RelayAccount

def floor (o : RelayAccount) : Nat := sinceLine o.lastRelayed

def send (o : RelayAccount) (messages : List RelayMessage) : RelayAccount :=
  { o with trace := o.trace ++ messages.map .sent }

def receive (o : RelayAccount) (c : TailLogChunk) : RelayAccount :=
  { o with trace := o.trace ++ [.received o.floor c.numbered] }

def sent (o : RelayAccount) : List RelayMessage :=
  o.trace.filterMap fun
    | .sent m => some m
    | .received .. => none

def relay (o : RelayAccount) (first : Nat) (lines : List Line) (next : Nat) : RelayAccount :=
  { o.send [.lines first lines] with lastRelayed := some (next - 1) }

def classify (o : RelayAccount) (gapFrom gapUntil : Nat) : Sighting :=
  match o.pendingGap with
  | none => .first
  | some p => if p.gapFrom = gapFrom ∧ p.gapUntil = gapUntil then .sameSpan else .divergent

def mergeSameSpan (o : RelayAccount) (fresh : PendingGap) : RelayAccount :=
  match o.pendingGap with
  | none => { o with pendingGap := some fresh }
  | some old => if old.nextLine < fresh.nextLine then { o with pendingGap := some fresh } else o

def onServe (o : RelayAccount) (nextLine : Nat) : RelayAccount × ServeHeal :=
  match o.pendingGap with
  | none => (o, .untouched)
  | some p =>
    if nextLine ≤ p.gapFrom then (o, .untouched)
    else if nextLine < p.gapUntil then (o, .shrunk nextLine)
    else ({ o with pendingGap := none }, .healed p.arm)

def dischargeServedPrefix (o : RelayAccount) (floor : Nat) : RelayAccount :=
  match o.pendingGap with
  | some p =>
    if floor < p.gapUntil then
      { o with pendingGap := some { p with gapFrom := max p.gapFrom floor } }
    else o
  | none => o

def sendLines (o : RelayAccount) (a : ArmedGap) : RelayAccount :=
  if a.lines = [] then o.send a.onDrop
  else (o.relay a.linesFrom a.lines a.nextLine).send ({ a with lines := [] } : ArmedGap).onDrop

/-- A marker for the hole up to a line, unless the floor shows that it was disclosed. -/
def disclose (o : RelayAccount) (a : ArmedGap) (start stop : Nat) (suppressed : ArmedGap) :
    RelayAccount × ArmedGap :=
  if o.acceptedGapFloor.all fun f => f ≤ start then
    ({ o.send (a.discloseHoleUntil stop).2 with acceptedGapFloor := some stop },
      (a.discloseHoleUntil stop).1)
  else (o, suppressed)

def discloseHole (o : RelayAccount) (a : ArmedGap) : RelayAccount × ArmedGap :=
  match a.hole with
  | some (start, stop) => o.disclose a start stop a.suppressHole
  | none => (o, a)

def flushPendingGap (o : RelayAccount) : RelayAccount :=
  match o.pendingGap with
  | none => o
  | some p =>
    let (o, a) := { o with pendingGap := none }.discloseHole p.arm
    o.sendLines a

def reconcileBackfill (o : RelayAccount) (a : ArmedGap) (freshFirst : Nat) (fresh : List Line)
    (freshNext : Nat) : RelayAccount :=
  match a.hole with
  | none => o.sendLines a
  | some (gapFrom, _) =>
    let (o, a) :=
      if gapFrom < freshFirst then
        o.disclose a gapFrom freshFirst (a.suppressHoleUntil freshFirst)
      else (o, a)
    let o := if fresh = [] then o else o.relay freshFirst fresh freshNext
    let (o, a) := o.discloseHole (a.noteDelivered freshNext)
    o.sendLines a

/-- One look at a chunk.  `noBudget` is whether the grace leaves no time for a re-open. -/
def pass (o : RelayAccount) (c : TailLogChunk) (noBudget : Bool) : ChunkPass :=
  match visitChunk o.floor c.firstLineNumber c.lines.length with
  | .skip _ => .done o
  | .serve yieldFrom yieldUntil nextLine =>
    let (o, heal) := o.onServe nextLine
    let o := o.relay yieldFrom (c.slice yieldFrom yieldUntil) nextLine
    match heal with
    | .untouched => .done o
    | .shrunk floor => .done (o.dischargeServedPrefix floor)
    | .healed a => .done (o.sendLines (a.noteDelivered nextLine))
  | .gapThenServe gapFrom gapUntil yieldFrom yieldUntil nextLine =>
    let lines := c.slice yieldFrom yieldUntil
    let fresh : PendingGap := ⟨gapFrom, gapUntil, yieldFrom, lines, nextLine⟩
    match o.classify gapFrom gapUntil, o.pendingGap with
    | .divergent, some p =>
      if c.firstLineNumber < p.gapUntil then
        .done ({ o with pendingGap := none }.reconcileBackfill p.arm yieldFrom lines nextLine)
      else .again o.flushPendingGap
    | .divergent, none => .again o.flushPendingGap
    | .sameSpan, _ => .done (o.mergeSameSpan fresh).flushPendingGap
    | .first, _ =>
      if noBudget then .done { o with pendingGap := some fresh }.flushPendingGap
      else .gapEnds { o with pendingGap := some fresh }

/-- The chunk is looked at until it is dealt with; the flag says that the stream is left to
re-open at a gap. -/
def relayLoop (c : TailLogChunk) (noBudget : Bool) :
    Nat → RelayAccount → Option (RelayAccount × Bool)
  | 0, _ => none
  | fuel + 1, o => match o.pass c noBudget with
    | .done o => some (o, false)
    | .gapEnds o => some (o, true)
    | .again o => relayLoop c noBudget fuel o

def onDrop (o : RelayAccount) : RelayAccount :=
  match o.pendingGap with
  | some p => { o with pendingGap := none }.send p.arm.onDrop
  | none => o

end RelayAccount

inductive RelayPhase
  | top
  | opening
  /-- A stream opened at an entry watermark, with the lines of this execution on it so far. -/
  | driving (entry : Option Nat) (seen : List (Nat × Line))
  | backoff
  | exited (cause : TailStopCause)
  | dropped
  deriving DecidableEq, Repr

structure Relay where
  account : RelayAccount := {}
  servedComplete : Bool := false
  terminal : Bool := false
  orphaned : Bool := false
  graceArmed : Bool := false
  graceExpired : Bool := false
  degraded : Bool := false
  degradedNoticeSent : Bool := false
  degradedLane : String := "store unreachable"
  phase : RelayPhase := .top
  deriving DecidableEq, Repr

def openFailedLane (unauthenticated : Bool) : String :=
  if unauthenticated then "session token rejected" else "store unreachable"

/-- What the clock says when the relay looks: whether an armed grace has run out, and the age
of a degradation that has outlived its threshold. -/
structure RelayClock where
  graceElapsed : Bool
  noticeDue : Option Nat
  deriving DecidableEq, Repr

inductive RelayEvent
  | terminal
  | orphaned
  | loopTop (clock : RelayClock)
  | opened
  | openFailed (unauthenticated : Bool) (clock : RelayClock)
  | openTimedOut (clock : RelayClock)
  | openAborted (clock : RelayClock)
  | chunk (c : TailLogChunk) (noBudget : Bool) (clock : RelayClock)
  | streamEnds (clock : RelayClock)
  | streamFails (unservable : Bool) (clock : RelayClock)
  | drainSeen (closed : Bool) (clock : RelayClock)
  | graceSeen (clock : RelayClock)
  | backoffEnds
  | dropped
  deriving DecidableEq, Repr

namespace Relay

def armGrace (r : Relay) : Relay := { r with graceArmed := r.graceArmed || r.terminal }

def readGrace (r : Relay) (clock : RelayClock) : Relay :=
  { r with graceExpired := r.graceExpired || (r.graceArmed && clock.graceElapsed) }

def isOwn (pinnedExec : String) (c : TailLogChunk) : Bool :=
  c.execId = "" || c.execId = pinnedExec

def finishExit (r : Relay) (cause : TailStopCause) (discloseTruncation : Bool) : Relay :=
  let account := r.account.flushPendingGap
  { r with
    account :=
      if discloseTruncation then account.send [.truncation account.floor] else account
    phase := .exited cause }

def next (r : Relay) (cause : TailStopCause) : Relay :=
  match tailNext cause r.terminal r.graceExpired r.servedComplete true with
  | .exit discloseTruncation => r.finishExit cause discloseTruncation
  | .reopen => { r with phase := .backoff }

def sendNotice (r : Relay) (clock : RelayClock) : Relay :=
  match clock.noticeDue with
  | some elapsed =>
    if r.degraded ∧ !r.degradedNoticeSent then
      { r with
        degradedNoticeSent := true
        account := r.account.send [.degraded r.account.floor elapsed r.degradedLane] }
    else r
  | none => r

def conclude (r : Relay) (cause : TailStopCause) (clock : RelayClock) : Relay :=
  let cause := if r.orphaned then .orphaned else cause
  ((r.sendNotice clock).armGrace.readGrace clock).next cause

def openFails (r : Relay) (lane : String) (clock : RelayClock) : Relay :=
  { r with degraded := true, degradedLane := lane }.conclude .openFailed clock

def noteDrive (r : Relay) (entry : Option Nat) (cause : TailStopCause) : Relay :=
  if r.account.lastRelayed ≠ entry then
    { r with degraded := false, degradedNoticeSent := false }
  else if cause = .transportErr then
    { r with degraded := true, degradedLane := "store refused in-stream" }
  else r

def driveEnds (r : Relay) (entry : Option Nat) (cause : TailStopCause) (clock : RelayClock) :
    Relay :=
  (r.noteDrive entry cause).conclude cause clock

def onChunk (r : Relay) (entry : Option Nat) (seen : List (Nat × Line)) (c : TailLogChunk)
    (noBudget : Bool) (clock : RelayClock) : Relay :=
  match (r.account.receive c).relayLoop c (r.graceArmed && noBudget) 2 with
  | some (account, gapEnds) =>
    let r := { r with
      account
      servedComplete := c.isComplete
      phase := .driving entry (seen ++ c.numbered) }
    if gapEnds then r.driveEnds entry .gapObserved clock else r
  | none => r

/-- Signals and a drop arrive at any point of a subscription that has not ended; the other
events only where the relay waits for them. -/
def step (pinnedExec : String) (r : Relay) (e : RelayEvent) : Relay :=
  match r.phase, e with
  | .exited _, _ | .dropped, _ => r
  | _, .terminal => { r with terminal := true }
  | _, .orphaned => { r with orphaned := true }
  | _, .dropped => { r with account := r.account.onDrop, phase := .dropped }
  | .top, .loopTop clock =>
    if r.orphaned then (r.readGrace clock).next .orphaned
    else { r.armGrace with phase := .opening }
  | .opening, .opened => { r with phase := .driving r.account.lastRelayed [] }
  | .opening, .openFailed unauthenticated clock =>
    r.openFails (openFailedLane unauthenticated) clock
  | .opening, .openTimedOut clock => r.openFails (openFailedLane false) clock
  | .opening, .openAborted clock => r.conclude .openFailed clock
  | .driving entry seen, .chunk c noBudget clock =>
    if isOwn pinnedExec c then r.onChunk entry seen c noBudget clock else r
  | .driving entry _, .streamEnds clock => r.driveEnds entry .naturalEnd clock
  | .driving entry _, .streamFails unservable clock =>
    r.driveEnds entry (if unservable then .permanentErr else .transportErr) clock
  | .driving entry _, .drainSeen closed clock =>
    if r.graceArmed then r
    else if closed then if r.orphaned then r.driveEnds entry .naturalEnd clock else r
    else r.armGrace
  | .driving entry _, .graceSeen clock =>
    if r.graceArmed ∧ clock.graceElapsed then r.driveEnds entry .naturalEnd clock else r
  | .backoff, .backoffEnds => { r with phase := .top }
  | _, _ => r

def run (execId : String) (events : List RelayEvent) : Relay := events.foldl (step execId) {}

def ended (r : Relay) : Bool :=
  match r.phase with
  | .exited _ | .dropped => true
  | .top | .opening | .driving .. | .backoff => false

end Relay

end RioBuild.Log
