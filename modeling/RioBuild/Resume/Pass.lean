import RioBuild.Resume.Ledger

/-! One store replica and its scheduler.  The replica runs `poll_and_claim` of `client.rs` pass
after pass, cut at the heads of its two loops and wherever it awaits an answer; between any two of
these points the scheduler may work on the pulls that were sent.  The futility latch is the answer
it gives to the pass, and the counters behind `PassOutcome` are left out. -/

namespace RioBuild.Resume

/-- `PullAssignmentRequest`; the number is that of the pulls sent before it. -/
structure Pull where
  number : Nat
  intentId : String
  claimNonce : Nonce
  confirmOnly : Bool
  deriving DecidableEq, Repr

structure Attempt where
  execId : String
  nonce : Nonce
  pull : Nat
  deriving DecidableEq, Repr

structure World where
  sent : Nat := 0
  inflight : List Pull := []
  processed : List Nat := []
  attempts : List Attempt := []
  deriving DecidableEq, Repr

/-- A pull is processed in its turn or is lost on the way; only a claiming pull can commit. -/
inductive Act where
  | process (commit : Option String)
  | lose (i : Nat)
  | close (execId : String)
  deriving DecidableEq, Repr

namespace World

def send (w : World) (intentId : String) (nonce : Nonce) (confirmOnly : Bool) : World :=
  { w with sent := w.sent + 1, inflight := w.inflight ++ [⟨w.sent, intentId, nonce, confirmOnly⟩] }

def commit (w : World) (pull : Pull) : Option String → List Attempt
  | some execId =>
    if pull.confirmOnly then w.attempts
    else ⟨execId, pull.claimNonce, pull.number⟩ :: w.attempts
  | none => w.attempts

def process (w : World) (execId : Option String) : World :=
  match w.inflight with
  | [] => w
  | pull :: rest =>
    { w with
      inflight := rest
      processed := pull.number :: w.processed
      attempts := w.commit pull execId }

def serve (w : World) : Act → World
  | .process execId => w.process execId
  | .lose i => { w with inflight := w.inflight.eraseIdx i }
  | .close execId => { w with attempts := w.attempts.filter fun a => a.execId ≠ execId }

end World

structure ClaimedJob where
  jobId : Uuid
  drvHash : String
  tenantHint : Option Uuid
  origin : String
  execId : String
  drvPath : String
  deriving DecidableEq, Repr

structure ExpectedJob where
  jobId : Uuid
  drvHash : String
  tenantHint : Option Uuid
  origin : String
  deriving DecidableEq, Repr

def reboundOrigin : String := "resume_rebound"

structure Descriptor where
  jobId : String
  drvHash : String
  tenantId : String
  origin : String
  deriving DecidableEq, Repr

section

variable (parseStr : String → Option Uuid)

def ClaimedJob.bind (expected : ExpectedJob) (assignment : WorkAssignment) : ClaimedJob :=
  let (jobId, tenantHint, origin) :=
    if assignment.jobId = "" then (expected.jobId, expected.tenantHint, expected.origin)
    else
      match parseStr assignment.jobId with
      | some wireJob =>
        if wireJob = expected.jobId then (expected.jobId, expected.tenantHint, expected.origin)
        else (wireJob, none, reboundOrigin)
      | none => (expected.jobId, expected.tenantHint, expected.origin)
  { jobId, drvHash := expected.drvHash, tenantHint, origin
    execId := assignment.execId, drvPath := assignment.drvPath }

def ResumeEntry.expected (e : ResumeEntry) : ExpectedJob :=
  ⟨e.jobId, e.drvHash, e.tenantHint, e.origin⟩

def Descriptor.expected (d : Descriptor) (jobId : Uuid) : ExpectedJob :=
  ⟨jobId, d.drvHash, parseStr d.tenantId, d.origin⟩

def Descriptor.entry (d : Descriptor) (jobId : Uuid) (nonce : Nonce) : ResumeEntry :=
  ⟨jobId, d.drvHash, parseStr d.tenantId, d.origin, nonce, .charged⟩

/-- Where the replica stands: between passes, at the head of the resume loop, behind it, at the
head of the loop over the listing, or awaiting the answer to a pull or to the listing. -/
inductive Phase where
  | idle
  | resuming (window : Nat)
  | presenting (entry : ResumeEntry) (probing : Bool) (window : Nat)
  | gating
  | listing
  | minting (listed : List Descriptor)
  | claiming (jobId : Uuid) (nonce : Nonce) (descriptor : Descriptor) (rest : List Descriptor)
  deriving DecidableEq, Repr

/-- `minted` counts the nonces made; `returned` is what the passes so far have returned. -/
structure State where
  ledger : ResumeLedger := {}
  phase : Phase := .idle
  slots : Nat := 0
  claimed : List ClaimedJob := []
  returned : List ClaimedJob := []
  minted : Nonce := 0
  world : World := {}

/-- What happens next.  `listed none` is a shutdown, a timeout or an error of the listing. -/
inductive Event where
  | serve (act : Act)
  | poll (slots : Nat)
  | present
  | answer (answer : PullAnswer) (now : Nat)
  | gate (withholding : Bool)
  | listed (jobs : Option (List Descriptor))
  | mint (now : Nat)
  deriving DecidableEq, Repr

namespace State

/-- `finish!`: every exit of the pass returns what it has claimed. -/
def finish (s : State) : State :=
  { s with phase := .idle, returned := s.returned ++ s.claimed, claimed := [] }

def poll (s : State) (slots : Nat) : State :=
  { s with slots, claimed := [], phase := .resuming s.ledger.presentationWindow }

def present (s : State) (window : Nat) : State :=
  match s.ledger.beginPresentation window with
  | none => { s with phase := .gating }
  | some (entry, window, ledger) =>
    let probing := decide (s.slots ≤ s.claimed.length)
    { s with
      ledger, phase := .presenting entry probing window
      world := s.world.send entry.drvHash entry.nonce probing }

def resumeLane (probing : Bool) : PresentationLane :=
  if probing then .probe else .resumeClaiming

def resumed (s : State) (entry : ResumeEntry) (probing : Bool) (window : Nat)
    (answer : PullAnswer) (now : Nat) : State :=
  if answer = .shutdown then
    { s with ledger := s.ledger.finishPresentation now entry .keep }.finish
  else
    { s with
      claimed :=
        match probing, answer with
        | false, .deliver assignment =>
          s.claimed ++ [ClaimedJob.bind parseStr entry.expected assignment]
        | _, _ => s.claimed
      ledger := s.ledger.finishPresentation now entry (standingEffect (resumeLane probing) answer)
      phase := if answer = .unanswered then .gating else .resuming window }

def gate (s : State) (withholding : Bool) : State :=
  if s.slots = 0 then s.finish
  else if s.ledger.mintHeadroom s.claimed.length s.slots ≠ .available then s.finish
  else if withholding then s.finish
  else { s with phase := .listing }

def listed (s : State) : Option (List Descriptor) → State
  | none => s.finish
  | some jobs => { s with phase := .minting jobs }

def mint (s : State) (now : Nat) : List Descriptor → State
  | [] => s.finish
  | descriptor :: rest =>
    if s.slots ≤ s.claimed.length + s.ledger.chargedLen then s.finish
    else
      match parseStr descriptor.jobId with
      | none => { s with phase := .minting rest }
      | some jobId =>
        let (barred, ledger) := s.ledger.remintBarred now jobId
        if barred then { s with ledger, phase := .minting rest }
        else
          match ledger.beginFreshClaim jobId (descriptor.entry parseStr jobId) s.minted with
          | none => { s with ledger, phase := .minting rest }
          | some ledger =>
            { s with
              ledger, phase := .claiming jobId s.minted descriptor rest
              minted := s.minted + 1
              world := s.world.send descriptor.drvHash s.minted false }

def freshlyClaimed (s : State) (jobId : Uuid) (descriptor : Descriptor) (rest : List Descriptor)
    (answer : PullAnswer) (now : Nat) : State :=
  if answer = .shutdown then s.finish
  else
    { s with
      ledger := s.ledger.applyStanding now jobId (standingEffect .fresh answer)
      claimed :=
        match answer with
        | .deliver assignment =>
          s.claimed ++ [ClaimedJob.bind parseStr (descriptor.expected parseStr jobId) assignment]
        | _ => s.claimed
      phase := .minting rest }

end State

def step (s : State) (e : Event) : State :=
  match s.phase, e with
  | _, .serve act => { s with world := s.world.serve act }
  | .idle, .poll slots => s.poll slots
  | .resuming window, .present => s.present window
  | .presenting entry probing window, .answer answer now =>
    s.resumed parseStr entry probing window answer now
  | .gating, .gate withholding => s.gate withholding
  | .listing, .listed jobs => s.listed jobs
  | .minting listed, .mint now => s.mint parseStr now listed
  | .claiming jobId _ descriptor rest, .answer answer now =>
    s.freshlyClaimed parseStr jobId descriptor rest answer now
  | _, _ => s

def state (events : Nat → Event) : Nat → State
  | 0 => {}
  | k + 1 => step parseStr (state events k) (events k)

end

def Phase.awaited : Phase → Option (PresentationLane × Uuid × Nonce)
  | presenting entry probing _ => some (State.resumeLane probing, entry.key)
  | claiming jobId nonce _ _ => some (.fresh, jobId, nonce)
  | _ => none

variable (parseStr : String → Option Uuid) (events : Nat → Event)

def Disowned (k : Nat) (nonce : Nonce) : Prop :=
  ∀ m, k ≤ m → ∀ a ∈ (state parseStr events m).world.attempts, a.nonce ≠ nonce

def Refused (k : Nat) (pull : Nat) : Prop :=
  ∀ m, k ≤ m → ∀ a ∈ (state parseStr events m).world.attempts, a.pull ≠ pull

/-- What an answer to the last pull says about the scheduler.  That pulls are processed at most
once and in order, and that only a claiming pull commits, under its nonce, is in `World.serve`; a
lost answer and a shutdown say nothing. -/
def Lawful (k : Nat) (nonce : Nonce) : PullAnswer → Prop
  | .deliver _ => ∃ pull ∈ (state parseStr events k).world.processed,
      pull + 1 = (state parseStr events k).world.sent
  | .gone => Disowned parseStr events k nonce
  | .rejectedDisproving => Disowned parseStr events k nonce
  | .rejectedAuth => ∀ pull, pull + 1 = (state parseStr events k).world.sent →
      Refused parseStr events k pull
  | .notYetReady => True
  | .unanswered => True
  | .shutdown => True

def Honest : Prop :=
  ∀ k lane jobId nonce answer now,
    (state parseStr events k).phase.awaited = some (lane, jobId, nonce) →
      events k = .answer answer now → Lawful parseStr events k nonce answer

/-- A delivery hands over the only attempt that is open under the nonce. -/
def HandsOver : Prop :=
  ∀ k lane jobId nonce assignment now,
    (state parseStr events k).phase.awaited = some (lane, jobId, nonce) →
      events k = .answer (.deliver assignment) now → ∀ a ∈ (state parseStr events k).world.attempts,
          a.nonce = nonce → a.execId = assignment.execId

end RioBuild.Resume
