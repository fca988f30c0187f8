import RioBuild.Lib.Maps
import RioBuild.Lib.Search

/-! The closure walk of one materialization job: `execute_job_inner` of `executor.rs`, with the
registries of `outcome.rs`.  The progress reports and the texts of the failures are left out. -/

namespace RioBuild.Materialize

open Lib

abbrev Uuid := BitVec 128

inductive PathCell where
  | wanted
  | reference
  deriving DecidableEq, Repr

/-- `retryAfter` is in nanoseconds. -/
inductive AbortDisposition where
  | charge (detail : String)
  | transient (label detail : String) (retryAfter : Option Nat)
  deriving DecidableEq, Repr

def AbortDisposition.tier : AbortDisposition → Nat
  | charge _ => 0
  | transient .. => 1

structure AbortEvidence where
  path : String
  grade : AbortDisposition
  deriving DecidableEq, Repr

/-- `PathResolution`, without the path and the cell that it hands back. -/
inductive PathAnswer where
  | served (references : List String) (verifiedTenants : List Uuid) (ingested : Bool)
  | settled (trustRefused contentMismatched : Bool)
  | abortGrade (grade : AbortDisposition)
  deriving DecidableEq, Repr

structure StaleVerdictCell where
  cellGeneration : Nat
  finalGeneration : Nat
  deriving DecidableEq, Repr

structure GenStampedCells where
  cells : List (String × Nat) := []
  deriving DecidableEq, Repr

namespace GenStampedCells

def record (c : GenStampedCells) (path : String) (generation : Nat) : GenStampedCells :=
  ⟨c.cells ++ [(path, generation)]⟩

def drainStale (c : GenStampedCells) (current : Nat) : List String × GenStampedCells :=
  ((c.cells.filter (·.2 < current)).map Prod.fst, ⟨c.cells.filter (¬ ·.2 < current)⟩)

def foldGuard (c : GenStampedCells) (final : Nat) : Except StaleVerdictCell Unit :=
  match c.cells.find? (·.2 ≠ final) with
  | some x => .error ⟨x.2, final⟩
  | none => .ok ()

def paths (c : GenStampedCells) : List String := c.cells.map Prod.fst

end GenStampedCells

inductive UnobtainableRefusal where
  | unspecified
  | trust
  | content
  | trustAndContent
  deriving DecidableEq, Repr

inductive InfraCause where
  | tenantQueryFailed
  | noTenantContext
  | wantedQueryFailed
  | noVerifiableWantedPaths
  | staleVerdict (registry : String) (stale : StaleVerdictCell)
  | charge (detail : String)
  deriving DecidableEq, Repr

inductive MaterializationOutcome where
  | success (ingestedPaths verifiedPaths : List String)
      (verifiedTenants : List (String × List Uuid))
  | unobtainable (missingPaths verifiedPaths missingReferencePaths : List String)
      (refusal : UnobtainableRefusal) (trustRefused : Bool)
  | infraFailure (cause : InfraCause)
  | retryLater (detail : String) (retryAfterSecs : Nat) (label : String)
  deriving DecidableEq, Repr

def refusalWire (trustRefused contentMismatched : Bool) : UnobtainableRefusal × Bool :=
  let refusal := match trustRefused, contentMismatched with
    | false, false => .unspecified
    | true, false => .trust
    | false, true => .content
    | true, true => .trustAndContent
  (refusal, refusal = .trust || refusal = .trustAndContent)

/-- `none` is the fold over no evidence, which panics. -/
def foldAbortEvidence (evidence : List AbortEvidence) : Option MaterializationOutcome := do
  let winTier ← (evidence.map (·.grade.tier)).min?
  let rep ← (evidence.filter (·.grade.tier = winTier)).argmin (·.path)
  let maxRetry := (evidence.filterMap fun e =>
    match e.grade with
    | .transient _ _ retryAfter => retryAfter
    | .charge _ => none).max?
  match rep.grade with
  | .charge detail => return .infraFailure (.charge detail)
  | .transient label detail _ =>
    return .retryLater detail ((maxRetry.map (· / 10 ^ 9)).getD 0) label

structure Resolved where
  path : String
  cell : PathCell
  iteration : Nat
  generation : Nat
  answer : PathAnswer
  deriving DecidableEq, Repr

/-- What happened so far; no branch reads it. -/
structure Journal where
  reads : List (Finset Uuid) := []
  enqueued : List (String × PathCell × Nat) := []
  resolved : List Resolved := []

structure Walk where
  visited : Finset String := ∅
  ingested : List String := []
  verified : List String := []
  verifiedTenants : Map String (List Uuid) := ∅
  missingWanted : GenStampedCells := {}
  missingReferences : GenStampedCells := {}
  trustRefused : GenStampedCells := {}
  contentMismatched : GenStampedCells := {}
  walkedEdges : Map String (List String) := ∅
  lastWanted : Finset String := ∅
  tenantGeneration : Nat := 0
  lastTenants : Finset Uuid := ∅
  reseedReferences : List String := []
  firstIteration : Bool := true
  journal : Journal := {}

namespace Walk

def iteration (w : Walk) : Nat := w.journal.reads.length - 1

def logResolved (w : Walk) (x : String × PathCell) (answer : PathAnswer) : Walk :=
  { w with journal.resolved := w.journal.resolved ++
      [⟨x.1, x.2, w.iteration, w.tenantGeneration, answer⟩] }

def serve (w : Walk) (path : String) (references : List String) (verifiedTenants : List Uuid)
    (ingested : Bool) : Walk :=
  { w with
    verifiedTenants := w.verifiedTenants.insert path verifiedTenants
    walkedEdges :=
      if references.isEmpty then w.walkedEdges
      else w.walkedEdges.insert path ((w.walkedEdges.lookup path).getD [] ++ references)
    ingested := if ingested then w.ingested ++ [path] else w.ingested
    verified := if ingested then w.verified else w.verified ++ [path] }

def settle (w : Walk) (path : String) (cell : PathCell) (trustRefused contentMismatched : Bool) :
    Walk :=
  let g := w.tenantGeneration
  { w with
    trustRefused := if trustRefused then w.trustRefused.record path g else w.trustRefused
    contentMismatched :=
      if contentMismatched then w.contentMismatched.record path g else w.contentMismatched
    missingWanted :=
      if cell = .wanted then w.missingWanted.record path g else w.missingWanted
    missingReferences :=
      if cell = .reference then w.missingReferences.record path g else w.missingReferences }

/-- A tenant that the previous read did not have re-opens every verdict. -/
def observeTenants (w : Walk) (current : Finset Uuid) : Walk :=
  let w := { w with journal.reads := w.journal.reads ++ [current] }
  let grew := ¬ current ⊆ w.lastTenants
  let w :=
    if grew ∧ w.lastTenants ≠ ∅ then
      let g := w.tenantGeneration + 1
      let staleWanted := (w.missingWanted.drainStale g).1
      let staleRefs := (w.missingReferences.drainStale g).1
      { w with
        tenantGeneration := g
        missingWanted := (w.missingWanted.drainStale g).2
        missingReferences := (w.missingReferences.drainStale g).2
        trustRefused := (w.trustRefused.drainStale g).2
        contentMismatched := (w.contentMismatched.drainStale g).2
        visited := w.visited \ (staleWanted ++ staleRefs).toFinset
        reseedReferences := w.reseedReferences ++ staleRefs }
    else w
  { w with lastTenants := current }

end Walk

def closureWalkCap : Nat := 50000

structure Drive where
  walk : Walk
  frontier : List (String × PathCell) := []
  window : List (String × PathCell) := []
  walkAbort : Option (List AbortEvidence) := none

namespace Drive

def latch (d : Drive) (evidence : AbortEvidence) : Drive :=
  { d with walkAbort := some (d.walkAbort.getD [] ++ [evidence]) }

def capEvidence (path : String) : AbortEvidence :=
  ⟨path, .charge "closure walk exceeded 50000 paths (hostile upstream reference chain?)"⟩

def enqueuePath (d : Drive) (path : String) (cell : PathCell) : Drive :=
  if path ∈ d.walk.visited then d
  else
    let visited := insert path d.walk.visited
    if closureWalkCap < visited.card then
      { d with walk.visited := visited }.latch (capEvidence path)
    else
      { d with
        walk.visited := visited
        walk.journal.enqueued := d.walk.journal.enqueued ++ [(path, cell, d.walk.iteration)]
        frontier := d.frontier ++ [(path, cell)] }

def enqueueAll (d : Drive) (xs : List (String × PathCell)) : Drive :=
  xs.foldl (fun d x => d.enqueuePath x.1 x.2) d

def applyResolution (d : Drive) (x : String × PathCell) (answer : PathAnswer) : Drive :=
  match answer with
  | .served references verifiedTenants ingested =>
    { d with walk := (d.walk.serve x.1 references verifiedTenants ingested).logResolved x answer
      }.enqueueAll (references.map (·, .reference))
  | .settled t c => { d with walk := (d.walk.settle x.1 x.2 t c).logResolved x answer }
  | .abortGrade grade => d.latch ⟨x.1, grade⟩

end Drive

inductive DriveEvent where
  | spawn
  | complete (path : String) (answer : PathAnswer)
  deriving DecidableEq, Repr

namespace Drive

/-- One turn of the loop, `none` where it cannot take this turn.  With an empty window the wait for
a slot blocks; otherwise a slot may be refused and the next completion is awaited.  Once the abort
is latched only completions that are already there are applied. -/
def step (fanout : Nat) (d : Drive) : DriveEvent → Option Drive
  | .spawn =>
    match d.walkAbort, d.frontier with
    | none, x :: rest =>
      if d.window.length < max fanout 1 then
        some { d with frontier := rest, window := d.window ++ [x] }
      else none
    | _, _ => none
  | .complete path answer =>
    match d.window.find? (·.1 = path) with
    | some x => some ({ d with window := d.window.erase x }.applyResolution x answer)
    | none => none

def finished (d : Drive) : Bool :=
  d.walkAbort.isSome || d.window.isEmpty && d.frontier.isEmpty

end Drive

inductive Opened where
  | failed (cause : InfraCause)
  | complete (w : Walk)
  | walking (d : Drive)

/-- An iteration up to its drive loop; `none` for a query that failed. -/
def Walk.openIteration (w : Walk) (tenants : Option (List Uuid)) (wanted : Option (List String)) :
    Opened :=
  match tenants with
  | none => .failed .tenantQueryFailed
  | some tenants =>
    if tenants.isEmpty then .failed .noTenantContext
    else
      let w := w.observeTenants tenants.toFinset
      match wanted with
      | none => .failed .wantedQueryFailed
      | some wanted =>
        let w := { w with lastWanted := wanted.toFinset }
        if w.firstIteration && wanted.isEmpty then .failed .noVerifiableWantedPaths
        else
          let w := { w with firstIteration := false }
          let newSeeds := wanted.filter (· ∉ w.visited)
          if newSeeds.isEmpty && w.reseedReferences.isEmpty then .complete w
          else
            let d : Drive := { walk := { w with reseedReferences := [] } }
            .walking (d.enqueueAll
              (newSeeds.map (·, .wanted) ++ w.reseedReferences.map (·, .reference)))

namespace Walk

def children (w : Walk) (p : String) : List String := (w.walkedEdges.lookup p).getD []

def liveRooted (w : Walk) : Finset String :=
  let fuel := w.lastWanted.card + w.walkedEdges.keys.sum fun p => (w.children p).length
  match Search.visit (fun p => some (w.children p)) fuel w.lastWanted
    w.lastWanted.sort.reverse with
  | .ok live => live
  | .error _ => ∅

def staleCell (w : Walk) : Option InfraCause :=
  [(w.missingWanted, "missing_wanted"), (w.missingReferences, "missing_references"),
    (w.trustRefused, "trust_refused"), (w.contentMismatched, "content_mismatched")].findSome?
    fun x => match x.1.foldGuard w.tenantGeneration with
      | .error stale => some (.staleVerdict x.2 stale)
      | .ok _ => none

def liveMissingWanted (w : Walk) : List String := w.missingWanted.paths.filter (· ∈ w.lastWanted)

def liveMissingReferences (w : Walk) : List String :=
  w.missingReferences.paths.filter (· ∈ w.liveRooted)

def liveAny (w : Walk) (cells : GenStampedCells) : Bool :=
  cells.paths.any fun p => p ∈ w.lastWanted || p ∈ w.liveRooted

def outcome (w : Walk) : MaterializationOutcome :=
  match w.staleCell with
  | some cause => .infraFailure cause
  | none =>
    if w.liveMissingWanted.isEmpty && w.liveMissingReferences.isEmpty then
      .success w.ingested w.verified
        ((w.ingested ++ w.verified).map fun p => (p, (w.verifiedTenants.lookup p).getD []))
    else
      let (refusal, trustRefusedEcho) :=
        refusalWire (w.liveAny w.trustRefused) (w.liveAny w.contentMismatched)
      .unobtainable w.liveMissingWanted (w.ingested ++ w.verified) w.liveMissingReferences refusal
        trustRefusedEcho

end Walk

structure Iteration where
  tenants : Option (List Uuid)
  wanted : Option (List String)
  events : List DriveEvent := []
  deriving DecidableEq, Repr

/-- `execute_job_inner` along the given iterations; `none` while it has not returned, or where it
cannot go this way. -/
def execute (fanout : Nat) (w : Walk) : List Iteration → Option (MaterializationOutcome × Walk)
  | [] => none
  | it :: its =>
    match w.openIteration it.tenants it.wanted with
    | .failed cause => some (.infraFailure cause, w)
    | .complete w => some (w.outcome, w)
    | .walking d => do
      let d ← it.events.foldlM (Drive.step fanout) d
      if d.finished then
        match d.walkAbort with
        | some evidence => (foldAbortEvidence evidence).map (·, d.walk)
        | none => execute fanout d.walk its
      else none

end RioBuild.Materialize
