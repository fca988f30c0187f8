import RioBuild.Lib.Dfs
import RioBuild.Lib.Maps

/-! The scheduler's derivation DAG: merging a submission, undoing a merge and reaping.  The
fields of a node that these functions only carry are one parameter, as are the parsers. -/

namespace RioBuild.Dag

open Lib

abbrev DrvHash := String

abbrev Uuid := BitVec 128

inductive DerivationStatus
  | created | queued | ready | assigned | running | completed | failed | poisoned
  | dependencyFailed | cancelled | skipped
  deriving DecidableEq, Repr

def DerivationStatus.isTerminal : DerivationStatus → Bool
  | .completed | .poisoned | .dependencyFailed | .cancelled | .skipped => true
  | .created | .queued | .ready | .assigned | .running | .failed => false

structure DerivationNode (ν : Type*) where
  drvPath : String
  drvHash : DrvHash
  wantedOutputNames : List String
  drvContent : List UInt8
  rest : ν

structure DerivationEdge where
  parentDrvPath : String
  childDrvPath : String

structure DerivationState (ρ : Type*) where
  drvHash : DrvHash
  drvPath : String
  status : DerivationStatus := .created
  interestedBuilds : Finset Uuid := ∅
  drvContent : List UInt8
  drvFetchAttempted : Bool := false
  inputSrcs : List String
  resubmitCycles : UInt32 := 0
  wantedByBuild : Map Uuid (List String) := ∅
  traceparent : String := ""
  rest : ρ

/-- `parsePath` is the error of `StorePath::parse`, which keeps the string it accepts;
`restOf` makes the carried fields of a new node, with the soft features split off. -/
structure NodeParsers (ν ρ ε : Type*) where
  parsePath : String → Option ε
  parseInputSrcs : List UInt8 → Option (List String)
  restOf : List String → ν → ρ

inductive DagError (ε : Type*)
  | cycleDetected
  | invalidDrvPath (path : String) (source : ε)

inductive EpochMintBand
  | retriable | verdictFree
  deriving DecidableEq, Repr

inductive ResubmitDisposition
  | mintsEpoch (band : EpochMintBand)
  | inFlightVerdictPending
  | servedTerminal
  | boundedRefusal
  deriving DecidableEq, Repr

def poisonResubmitRetryLimit : UInt32 := 2

/-- The empty list stands for all outputs. -/
def unionWantedSaturating (dst src : List String) : List String :=
  if dst = [] ∨ src = [] then []
  else (src.foldl (fun dst n => if n ∈ dst then dst else dst ++ [n]) dst).mergeSort

namespace DerivationState

variable {ν ρ : Type*}

def resubmitDisposition (s : DerivationState ρ) : ResubmitDisposition :=
  match s.status with
  | .created | .queued | .ready => .mintsEpoch .verdictFree
  | .cancelled | .failed | .dependencyFailed => .mintsEpoch .retriable
  | .poisoned =>
    if s.resubmitCycles < poisonResubmitRetryLimit then .mintsEpoch .retriable
    else .boundedRefusal
  | .assigned | .running => .inFlightVerdictPending
  | .completed | .skipped => .servedTerminal

def mintsEpochOnResubmit (s : DerivationState ρ) (explicitRoot : Bool) : Bool :=
  match s.resubmitDisposition with
  | .mintsEpoch .retriable => true
  | .mintsEpoch .verdictFree => explicitRoot
  | .inFlightVerdictPending | .servedTerminal | .boundedRefusal => false

def tryFromNode (parsers : NodeParsers ν ρ ε) (softFeatures : List String)
    (node : DerivationNode ν) : Except ε (DerivationState ρ) :=
  match parsers.parsePath node.drvPath with
  | some source => .error source
  | none => .ok
    { drvHash := node.drvHash
      drvPath := node.drvPath
      drvContent := node.drvContent
      inputSrcs := (parsers.parseInputSrcs node.drvContent).getD []
      rest := parsers.restOf softFeatures node.rest }

def rehydrateFromAterm (parsers : NodeParsers ν ρ ε) (bytes : List UInt8)
    (s : DerivationState ρ) : Option (DerivationState ρ) :=
  (parsers.parseInputSrcs bytes).map fun inputSrcs => { s with inputSrcs, drvContent := bytes }

def clearAterm (s : DerivationState ρ) : DerivationState ρ :=
  { s with drvContent := [], inputSrcs := [] }

/-- The flag is whether the interest is new. -/
def addInterest (buildId : Uuid) (s : DerivationState ρ) : DerivationState ρ × Bool :=
  ({ s with interestedBuilds := insert buildId s.interestedBuilds }, buildId ∉ s.interestedBuilds)

/-- The flag is the prior `drvFetchAttempted` of a node that was filled in. -/
def backfill (parsers : NodeParsers ν ρ ε) (content : List UInt8) (s : DerivationState ρ) :
    DerivationState ρ × Option Bool :=
  if s.drvContent = [] ∧ content ≠ [] then
    match s.rehydrateFromAterm parsers content with
    | some filled => ({ filled with drvFetchAttempted := false }, some s.drvFetchAttempted)
    | none => (s, none)
  else (s, none)

/-- The prior contribution of the build is returned. -/
def contribute (buildId : Uuid) (wanted : List String) (s : DerivationState ρ) :
    DerivationState ρ × Option (List String) :=
  let prior := s.wantedByBuild.lookup buildId
  let entry := match prior with
    | some w => unionWantedSaturating w wanted
    | none => wanted
  ({ s with wantedByBuild := s.wantedByBuild.insert buildId entry }, prior)

/-- The flag is whether an empty one was replaced. -/
def upgradeTraceparent (traceparent : String) (s : DerivationState ρ) :
    DerivationState ρ × Bool :=
  if s.traceparent = "" ∧ traceparent ≠ "" then ({ s with traceparent }, true) else (s, false)

end DerivationState

structure DerivationDag (ρ : Type*) where
  nodes : Map DrvHash (DerivationState ρ) := ∅
  children : Map DrvHash (Finset DrvHash) := ∅
  parents : Map DrvHash (Finset DrvHash) := ∅
  pathToHash : Map String DrvHash := ∅
  softFeatures : List String := []
  resubmitFloors : Map String UInt32 := ∅

structure MergeResult (ρ : Type*) where
  newlyInserted : Finset DrvHash := ∅
  newEdges : List (DrvHash × DrvHash) := []
  interestAdded : List DrvHash := []
  resetOnResubmit : List DrvHash := []
  removedRetriable : List (DrvHash × DerivationState ρ) := []
  traceparentUpgraded : List DrvHash := []
  contributionsRecorded : List (DrvHash × Option (List String)) := []
  floorsConsumed : List (String × UInt32) := []
  drvContentBackfilled : List (DrvHash × Bool) := []

/-- The orders in which hash sets are iterated, one for each node's children. -/
structure IterOrder where
  children : DrvHash → Finset DrvHash → List DrvHash
  nodes : Finset DrvHash → List DrvHash
  mem_children : ∀ h s c, c ∈ children h s ↔ c ∈ s
  mem_nodes : ∀ s h, h ∈ nodes s ↔ h ∈ s

structure Merging (ρ : Type*) where
  dag : DerivationDag ρ
  log : MergeResult ρ := {}

structure Submission (ν : Type*) where
  buildId : Uuid
  nodes : List (DerivationNode ν)
  edges : List DerivationEdge
  traceparent : String

variable {ν ρ : Type*}

def Submission.isRoot (sub : Submission ν) (drvPath : String) : Bool :=
  drvPath ∉ sub.edges.map DerivationEdge.childDrvPath

namespace Merging

def takeOut (h : DrvHash) (old : DerivationState ρ) (m : Merging ρ) : Merging ρ :=
  { dag := { m.dag with nodes := m.dag.nodes.erase h }
    log := { m.log with removedRetriable := m.log.removedRetriable ++ [(h, old)] } }

def takeMintable (sub : Submission ν) (node : DerivationNode ν) (m : Merging ρ) :
    Merging ρ × Option (DerivationState ρ) :=
  match m.dag.nodes.lookup node.drvHash with
  | some old =>
    if node.drvHash ∉ m.log.newlyInserted ∧ old.mintsEpochOnResubmit (sub.isRoot node.drvPath) then
      (m.takeOut node.drvHash old, some old)
    else (m, none)
  | none => (m, none)

def touchExisting (parsers : NodeParsers ν ρ ε) (sub : Submission ν) (node : DerivationNode ν)
    (existing : DerivationState ρ) (m : Merging ρ) : Merging ρ :=
  let (s, isNew) := existing.addInterest sub.buildId
  let (s, priorAttempted) := s.backfill parsers node.drvContent
  let (s, priorContribution) := s.contribute sub.buildId node.wantedOutputNames
  let (s, upgraded) := s.upgradeTraceparent sub.traceparent
  { dag := { m.dag with nodes := m.dag.nodes.insert node.drvHash s }
    log := { m.log with
      interestAdded := m.log.interestAdded ++ if isNew then [node.drvHash] else []
      drvContentBackfilled := m.log.drvContentBackfilled ++ match priorAttempted with
        | some attempted => [(node.drvHash, attempted)]
        | none => []
      contributionsRecorded :=
        m.log.contributionsRecorded ++ [(node.drvHash, priorContribution)]
      traceparentUpgraded :=
        m.log.traceparentUpgraded ++ if upgraded then [node.drvHash] else [] } }

/-- `entry(b).or_insert(w)` for every prior contribution. -/
def carryContributions (prior current : Map Uuid (List String)) : Map Uuid (List String) :=
  current ∪ prior

def insertFresh (sub : Submission ν) (node : DerivationNode ν) (fresh : DerivationState ρ)
    (prior : Option (DerivationState ρ)) (m : Merging ρ) : Merging ρ :=
  let fresh := { fresh with
    interestedBuilds := insert sub.buildId fresh.interestedBuilds
    wantedByBuild := fresh.wantedByBuild.insert sub.buildId node.wantedOutputNames }
  let floor := match prior with
    | some _ => none
    | none => m.dag.resubmitFloors.lookup node.drvHash
  let fresh := match prior, floor with
    | some old, _ => { fresh with
      interestedBuilds := fresh.interestedBuilds ∪ old.interestedBuilds
      resubmitCycles := old.resubmitCycles + 1
      wantedByBuild := carryContributions old.wantedByBuild fresh.wantedByBuild }
    | none, some floor => { fresh with resubmitCycles := floor }
    | none, none => fresh
  let fresh := { fresh with traceparent := sub.traceparent }
  { dag := { m.dag with
      nodes := m.dag.nodes.insert node.drvHash fresh
      pathToHash := m.dag.pathToHash.insert fresh.drvPath node.drvHash
      resubmitFloors := match floor with
        | some _ => m.dag.resubmitFloors.erase node.drvHash
        | none => m.dag.resubmitFloors }
    log := { m.log with
      newlyInserted := insert node.drvHash m.log.newlyInserted
      floorsConsumed := m.log.floorsConsumed ++ match floor with
        | some floor => [(node.drvHash, floor)]
        | none => []
      resetOnResubmit := m.log.resetOnResubmit ++
        if prior.isSome || floor.isSome then [node.drvHash] else [] } }

def mergeNode (parsers : NodeParsers ν ρ ε) (sub : Submission ν) (node : DerivationNode ν)
    (m : Merging ρ) : Merging ρ × Option (DagError ε) :=
  let (m, prior) := m.takeMintable sub node
  match m.dag.nodes.lookup node.drvHash with
  | some existing => (m.touchExisting parsers sub node existing, none)
  | none =>
    match DerivationState.tryFromNode parsers m.dag.softFeatures node with
    | .error source => (m, some (.invalidDrvPath node.drvPath source))
    | .ok fresh => (m.insertFresh sub node fresh prior, none)

def mergeNodes (parsers : NodeParsers ν ρ ε) (sub : Submission ν) :
    List (DerivationNode ν) → Merging ρ → Merging ρ × Option (DagError ε)
  | [], m => (m, none)
  | node :: nodes, m =>
    match m.mergeNode parsers sub node with
    | (m, none) => mergeNodes parsers sub nodes m
    | (m, some e) => (m, some e)

def addEdge (m : Merging ρ) (e : DerivationEdge) : Merging ρ :=
  match m.dag.pathToHash.lookup e.parentDrvPath, m.dag.pathToHash.lookup e.childDrvPath with
  | some parent, some child =>
    { dag := { m.dag with
        children := m.dag.children.addTo parent child
        parents := m.dag.parents.addTo child parent }
      log := { m.log with
        newEdges := m.log.newEdges ++
          if child ∈ m.dag.children.row parent then [] else [(parent, child)] } }
  | _, _ => m

def addEdges (edges : List DerivationEdge) (m : Merging ρ) : Merging ρ := edges.foldl addEdge m

end Merging

namespace DerivationDag

def childrenOf (order : IterOrder) (dag : DerivationDag ρ) (h : DrvHash) : List DrvHash :=
  order.children h (dag.children.row h)

def vertices (dag : DerivationDag ρ) (starts : List DrvHash) : Finset DrvHash :=
  starts.toFinset ∪ dag.children.keys.biUnion dag.children.row

/-- `has_cycle_from` every start in turn, with one colouring.  The searches end within the
fuel. -/
def hasCycleFromAny (order : IterOrder) (dag : DerivationDag ρ) (starts : List DrvHash) :
    Option Bool :=
  Dfs.searchAll (dag.childrenOf order) (Dfs.fuelFor (dag.childrenOf order) (dag.vertices starts))
    starts fun _ => .white

def dfsStarts (order : IterOrder) (log : MergeResult ρ) : List DrvHash :=
  order.nodes log.newlyInserted ++ (log.newEdges.map Prod.fst).filter (· ∉ log.newlyInserted)

def restoring (log : MergeResult ρ) : List DrvHash := log.removedRetriable.map Prod.fst

def dropEdge (dag : DerivationDag ρ) (edge : DrvHash × DrvHash) : DerivationDag ρ :=
  { dag with
    children := dag.children.dropFrom edge.1 edge.2
    parents := dag.parents.dropFrom edge.2 edge.1 }

def dropInserted (log : MergeResult ρ) (dag : DerivationDag ρ) (h : DrvHash) : DerivationDag ρ :=
  { dag with
    nodes := dag.nodes.erase h
    pathToHash := match dag.nodes.lookup h with
      | some s => dag.pathToHash.erase s.drvPath
      | none => dag.pathToHash
    children := if h ∈ restoring log then dag.children else dag.children.erase h
    parents := if h ∈ restoring log then dag.parents else dag.parents.erase h }

def restore (dag : DerivationDag ρ) (entry : DrvHash × DerivationState ρ) : DerivationDag ρ :=
  { dag with
    nodes := dag.nodes.insert entry.1 entry.2
    pathToHash := dag.pathToHash.insert entry.2.drvPath entry.1 }

def modifyNode (h : DrvHash) (f : DerivationState ρ → DerivationState ρ) (dag : DerivationDag ρ) :
    DerivationDag ρ :=
  { dag with nodes := dag.nodes.modify h f }

def dropInterest (buildId : Uuid) (s : DerivationState ρ) : DerivationState ρ :=
  { s with interestedBuilds := s.interestedBuilds.erase buildId }

def clearTraceparent (s : DerivationState ρ) : DerivationState ρ := { s with traceparent := "" }

def unfill (priorAttempted : Bool) (s : DerivationState ρ) : DerivationState ρ :=
  { s.clearAterm with drvFetchAttempted := priorAttempted }

def setContribution (buildId : Uuid) (prior : Option (List String)) (s : DerivationState ρ) :
    DerivationState ρ :=
  { s with
    wantedByBuild := match prior with
      | some w => s.wantedByBuild.insert buildId w
      | none => s.wantedByBuild.erase buildId }

def rollbackMerge (order : IterOrder) (buildId : Uuid) (log : MergeResult ρ)
    (dag : DerivationDag ρ) : DerivationDag ρ :=
  let dag := { dag with
    resubmitFloors := log.floorsConsumed.foldl (fun floors f => floors.insert f.1 f.2)
      dag.resubmitFloors }
  let dag := log.newEdges.foldl dropEdge dag
  let dag := (order.nodes log.newlyInserted).foldl (dropInserted log) dag
  let dag := log.removedRetriable.foldl restore dag
  let dag := log.interestAdded.foldl (fun dag h => dag.modifyNode h (dropInterest buildId)) dag
  let dag := log.traceparentUpgraded.foldl (fun dag h => dag.modifyNode h clearTraceparent) dag
  let dag := (log.drvContentBackfilled.filter (·.1 ∉ restoring log)).foldl
    (fun dag e => dag.modifyNode e.1 (unfill e.2)) dag
  (log.contributionsRecorded.reverse.filter (·.1 ∉ restoring log)).foldl
    (fun dag e => dag.modifyNode e.1 (setContribution buildId e.2)) dag

def merge (parsers : NodeParsers ν ρ ε) (order : IterOrder) (sub : Submission ν)
    (dag : DerivationDag ρ) : DerivationDag ρ × Except (DagError ε) (MergeResult ρ) :=
  match Merging.mergeNodes parsers sub sub.nodes { dag } with
  | (m, some e) => (m.dag.rollbackMerge order sub.buildId m.log, .error e)
  | (m, none) =>
    let m := m.addEdges sub.edges
    match m.dag.hasCycleFromAny order (dfsStarts order m.log) with
    | some true => (m.dag.rollbackMerge order sub.buildId m.log, .error .cycleDetected)
    | some false | none => (m.dag, .ok m.log)

def removeNode (order : IterOrder) (dag : DerivationDag ρ) (h : DrvHash) : DerivationDag ρ :=
  let pathToHash := match dag.nodes.lookup h with
    | some s => dag.pathToHash.erase s.drvPath
    | none => dag.pathToHash
  let parents := (order.nodes (dag.children.row h)).foldl
    (fun parents c => Map.modify c (·.erase h) parents) dag.parents
  let children := (order.nodes (parents.row h)).foldl
    (fun children p => Map.modify p (·.erase h) children) (dag.children.erase h)
  { dag with
    nodes := dag.nodes.erase h
    pathToHash
    children
    parents := parents.erase h }

def loseInterest (buildId : Uuid) (s : DerivationState ρ) : DerivationState ρ :=
  { s with
    interestedBuilds := s.interestedBuilds.erase buildId
    wantedByBuild := s.wantedByBuild.erase buildId }

def isReapable (s : DerivationState ρ) : Bool :=
  s.interestedBuilds = ∅ ∧ s.status.isTerminal ∧ s.status ≠ .poisoned

structure ReapOutcome where
  reapedPaths : List String
  survivingParents : Finset DrvHash

def removeBuildInterestAndReap (order : IterOrder) (buildId : Uuid) (dag : DerivationDag ρ) :
    DerivationDag ρ × ReapOutcome :=
  let visited := order.nodes dag.nodes.keys
  let dag := visited.foldl (fun dag h => dag.modifyNode h (loseInterest buildId)) dag
  let toReap := visited.filterMap fun h => (dag.nodes.lookup h).bind fun s =>
    if isReapable s then some (h, s.drvPath) else none
  let (dag, parents) := toReap.foldl (fun (dag, parents) (h, _) =>
    (dag.removeNode order h, parents ∪ dag.parents.row h)) (dag, (∅ : Finset DrvHash))
  (dag, { reapedPaths := toReap.map Prod.snd
          survivingParents := parents.filter (· ∈ dag.nodes) })

end DerivationDag

end RioBuild.Dag
