import RioBuild.Lib.Numbered
import RioBuild.Log.Coverage

/-! The ingest session: batches are accepted into a buffer and cut into chunks.  A cut is
modelled by its three moments (the drain under the lock, and the success or failure of
the commit), so that anything may happen between them. -/

namespace RioBuild.Log

open Lib Lib.Word

abbrev Line := List UInt8

structure BuildLogBatch where
  derivationPath : String
  lines : List Line
  firstLineNumber : Nat
  executorId : String
  deriving DecidableEq, Repr

structure FanBatch where
  coverageFloor : Nat
  batch : BuildLogBatch
  deriving DecidableEq, Repr

structure IngestConfig where
  perExecByteCap : Nat
  cutThresholdBytes : Nat
  deriving DecidableEq, Repr

structure Subscriber where
  reader : Nat
  queue : List FanBatch
  deriving DecidableEq, Repr

inductive TrySend
  | ok | full | closed
  deriving DecidableEq, Repr

def accountedLen (line : Line) : Nat := chargedLineCost line.length

def accountedBytes (lines : List (Nat × Line)) : Nat := (lines.map fun p => accountedLen p.2).sum

structure IngestShared where
  buffer : List (Nat × Line) := []
  inFlight : List (Nat × Line) := []
  bufferBytes : Nat := 0
  oldestPendingSince : Option Nat := none
  subscribers : List Subscriber := []
  tailDropped : Nat := 0
  dropEpoch : Nat := 0
  deriving DecidableEq, Repr

namespace IngestShared

def snapshotSince (sh : IngestShared) (since : Nat) : List (Nat × Line) :=
  (sh.inFlight ++ sh.buffer).filter fun p => since ≤ p.1

def subscribe (sh : IngestShared) (reader since : Nat) : IngestShared × List (Nat × Line) :=
  ({ sh with subscribers := sh.subscribers ++ [⟨reader, []⟩] }, sh.snapshotSince since)

def restoreInFlight (sh : IngestShared) : IngestShared :=
  if sh.inFlight = [] then sh
  else { sh with
    inFlight := []
    buffer := sh.inFlight ++ sh.buffer
    bufferBytes := sh.bufferBytes + accountedBytes sh.inFlight }

def fanOut (sends : Nat → TrySend) (b : FanBatch) (sh : IngestShared) : IngestShared :=
  let dropped := (sh.subscribers.filter fun t => sends t.reader = .full).length
  let subscribers := sh.subscribers.filterMap fun t => match sends t.reader with
    | .ok => some { t with queue := t.queue ++ [b] }
    | .full => some t
    | .closed => none
  if dropped = 0 then { sh with subscribers }
  else { sh with
    subscribers
    tailDropped := sh.tailDropped + dropped
    dropEpoch := (sh.dropEpoch + 1) % 2 ^ 64 }

def runLen (sh : IngestShared) : Nat :=
  boundedContiguousPrefixLen maxChunkPayloadBytes (sh.buffer.map fun p => (p.1, p.2.length))

def stage (sh : IngestShared) : IngestShared :=
  { sh with
    inFlight := sh.buffer.take sh.runLen
    buffer := sh.buffer.drop sh.runLen
    bufferBytes := sh.bufferBytes - accountedBytes (sh.buffer.take sh.runLen) }

def pending (sh : IngestShared) : List (Nat × Line) := sh.inFlight ++ sh.buffer

end IngestShared

structure GateOk where
  finalLineCount : Option Int
  mergedBytes : Nat
  mergedChunks : UInt32
  covered : CoverageMap

structure IngestSession where
  shared : IngestShared
  config : IngestConfig
  nextSeq : UInt32
  priorChunks : UInt32
  highWaterLine : Nat
  finalLineCount : Option Nat
  acceptedBytes : Nat
  covered : CoverageMap
  sessionFloor : Nat
  consecutiveCutFailures : UInt8
  deriving DecidableEq, Repr

inductive AcceptOutcome
  | accepted (cutDue : Bool)
  | rejectedOverflow | rejectedNonMonotone | rejectedPastFinal | rejectedOversizedBatch
  | coveredReplay (durableThrough : Option Nat)
  deriving DecidableEq, Repr

inductive IngestError
  | byteCap (cap : Nat)
  deriving DecidableEq, Repr

def IngestError.message : IngestError → String
  | .byteCap cap => "AppendLog: execution exceeded the " ++ toString cap ++ "-byte log ingest cap"

inductive Admission
  | keepalive
  | belowFloor (last : Nat)
  | rejected (outcome : AcceptOutcome)
  | covered (stop : Nat)
  | overCap
  | buffered (batch : BuildLogBatch) (stop : Nat)
  deriving DecidableEq, Repr

structure Attempt where
  seq : UInt32
  firstLine : Nat
  lines : List Line
  deriving DecidableEq, Repr

def Attempt.numbered (a : Attempt) : List (Nat × Line) := numberFrom a.firstLine a.lines

def maxLineLen : Nat := maxLineContentBytes

def truncateLine (line : Line) : Line :=
  if maxLineLen < line.length then line.take maxLineLen else line

def trimFloor (floor : Nat) (batch : BuildLogBatch) : BuildLogBatch :=
  if batch.firstLineNumber < floor then
    { batch with
      lines := batch.lines.drop (floor - batch.firstLineNumber)
      firstLineNumber := floor }
  else batch

namespace IngestSession

def setFinalLineCount (s : IngestSession) (n : Nat) : IngestSession :=
  { s with finalLineCount := s.finalLineCount.or (some n) }

def new (gate : GateOk) (config : IngestConfig) : IngestSession :=
  let s : IngestSession := {
    shared := {}
    config
    nextSeq := 0
    priorChunks := gate.mergedChunks
    highWaterLine := 0
    finalLineCount := none
    acceptedBytes := gate.mergedBytes
    covered := gate.covered
    sessionFloor := gate.covered.contiguousPrefixEnd
    consecutiveCutFailures := 0 }
  match gate.finalLineCount with
  | some n => s.setFinalLineCount n.toNat
  | none => s

def openCoverageNextLine (s : IngestSession) : Nat := s.sessionFloor

def durableFrontier (s : IngestSession) : Option Nat := s.covered.contiguousDurableFrontier

def clampedDurableAck (s : IngestSession) (naturalLastLine : Nat) : Option Nat :=
  s.durableFrontier.map fun frontier => min naturalLastLine frontier

def cutDue (s : IngestSession) : Bool := decide (s.config.cutThresholdBytes ≤ s.shared.bufferBytes)

def chunkAttempts (s : IngestSession) : UInt32 := U32.saturatingAdd s.priorChunks s.nextSeq

def admission (s : IngestSession) (batch : BuildLogBatch) : Admission :=
  let last := saturatingAdd batch.firstLineNumber (batch.lines.length - 1)
  if batch.lines = [] then .keepalive
  else if batch.firstLineNumber < s.sessionFloor ∧ last < s.sessionFloor then .belowFloor last
  else
    let batch := trimFloor s.sessionFloor batch
    match acceptVerdict s.highWaterLine s.finalLineCount batch.firstLineNumber
        batch.lines.length with
    | .rejectedOverflow => .rejected .rejectedOverflow
    | .rejectedNonMonotone => .rejected .rejectedNonMonotone
    | .rejectedPastFinal => .rejected .rejectedPastFinal
    | .rejectedOversizedBatch => .rejected .rejectedOversizedBatch
    | .accepted stop =>
      let kept :=
        if stop < batch.firstLineNumber + batch.lines.length then
          batch.lines.take (stop - batch.firstLineNumber)
        else batch.lines
      if s.covered.coversRange batch.firstLineNumber stop then .covered stop
      else
        let lines := kept.map truncateLine
        if s.config.perExecByteCap <
            saturatingAdd s.acceptedBytes (lines.map accountedLen).sum then .overCap
        else .buffered { batch with lines } stop

/-- The critical section of `accept` and the counters it moves. -/
def append (s : IngestSession) (now : Nat) (sends : Nat → TrySend) (batch : BuildLogBatch)
    (stop : Nat) : IngestSession :=
  let shared := s.shared
  let shared :=
    if shared.buffer = [] ∧ shared.inFlight = [] then
      { shared with oldestPendingSince := some now }
    else shared
  let shared := shared.fanOut sends ⟨s.highWaterLine, batch⟩
  let batchBytes := (batch.lines.map accountedLen).sum
  { s with
    shared := { shared with
      buffer := shared.buffer ++ numberFrom batch.firstLineNumber batch.lines
      bufferBytes := shared.bufferBytes + batchBytes }
    highWaterLine := stop
    acceptedBytes := (s.acceptedBytes + batchBytes) % 2 ^ 64 }

def accept (s : IngestSession) (now : Nat) (sends : Nat → TrySend) (batch : BuildLogBatch) :
    Except IngestError (IngestSession × AcceptOutcome) :=
  match s.admission batch with
  | .keepalive => .ok (s, .accepted s.cutDue)
  | .belowFloor last =>
    .ok ({ s with highWaterLine := max s.highWaterLine (last + 1) },
      .coveredReplay (s.clampedDurableAck last))
  | .rejected outcome => .ok (s, outcome)
  | .covered stop =>
    .ok ({ s with highWaterLine := stop }, .coveredReplay (s.clampedDurableAck (stop - 1)))
  | .overCap => .error (.byteCap s.config.perExecByteCap)
  | .buffered batch stop =>
    .ok (s.append now sends batch stop, .accepted (s.append now sends batch stop).cutDue)

/-- `cut` up to its commit: a predecessor's run is folded back, the next run is staged and
a sequence number is burned; nothing is when the buffer is empty. -/
def beginCut (s : IngestSession) : IngestSession × Option Attempt :=
  let shared := s.shared.restoreInFlight
  match shared.buffer with
  | [] => ({ s with shared }, none)
  | (firstLine, _) :: _ =>
    ({ s with shared := shared.stage, nextSeq := s.nextSeq + 1 },
      some { seq := s.nextSeq, firstLine, lines := shared.stage.inFlight.map Prod.snd })

def finishCut (s : IngestSession) (now : Nat) (a : Attempt) : IngestSession × Option Nat :=
  let s : IngestSession := { s with
    shared := { s.shared with
      inFlight := []
      oldestPendingSince := if s.shared.buffer = [] then none else some now }
    consecutiveCutFailures := 0
    covered := s.covered.insert a.firstLine a.lines.length }
  (s, s.clampedDurableAck (a.firstLine + a.lines.length - 1))

def countCutFailure (s : IngestSession) : IngestSession :=
  { s with consecutiveCutFailures := .ofNat (min (s.consecutiveCutFailures.toNat + 1) 255) }

def failCut (s : IngestSession) : IngestSession :=
  { s with shared := s.shared.restoreInFlight }.countCutFailure

def noteCutAbandoned (s : IngestSession) : IngestSession := s.countCutFailure

end IngestSession

end RioBuild.Log
