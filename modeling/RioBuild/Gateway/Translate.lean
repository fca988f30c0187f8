import RioBuild.Dag.Model

/-! How the gateway turns build targets into a submission: the level-batched search for a
target's closure, what is wanted of each derivation, and the merge of the targets' graphs.
Fields that these functions only carry are parameters, as are the parser and the store. -/

universe u

namespace RioBuild.Gateway

open Lib Dag

structure DerivationOutput where
  name : String
  path : String
  hashAlgo : String
  hash : String
  deriving DecidableEq, Repr

structure Derivation (δ : Type*) where
  outputs : List DerivationOutput
  inputDrvs : List (String × Finset String)
  rest : δ
  sorted_inputDrvs : (inputDrvs.map Prod.fst).Pairwise (· < ·)

namespace Derivation

def inputPaths (drv : Derivation δ) : List String := drv.inputDrvs.map Prod.fst

def isFixedOutput (drv : Derivation δ) : Bool :=
  match drv.outputs with
  | [o] => o.name = "out" && o.hashAlgo ≠ "" && o.hash ≠ ""
  | _ => false

def hasCaFloatingOutputs (drv : Derivation δ) : Bool :=
  drv.outputs.any fun o => o.hashAlgo ≠ "" && o.hash = ""

def isContentAddressed (drv : Derivation δ) : Bool :=
  drv.isFixedOutput || drv.hasCaFloatingOutputs

def hasUnknownOutputPaths (drv : Derivation δ) : Bool := drv.outputs.any fun o => o.path = ""

end Derivation

/-- What a request asks for; a selection by name is never empty. -/
inductive OutputSpec
  | all
  | names (names : List String) (nonempty : names ≠ [])
  deriving DecidableEq

/-- The fields of a submitted node that the scheduler's merge does not read. -/
structure NodeRest (ν : Type*) where
  outputNames : List String
  expectedOutputPaths : List String
  isFixedOutput : Bool
  isContentAddressed : Bool
  needsResolve : Bool
  explicitlyRequested : Bool
  attrs : ν

abbrev Node (ν : Type*) := DerivationNode (NodeRest ν)

abbrev DrvCache (δ : Type*) := Map String (Derivation δ)

/-- `parsePath` is the error of `StorePath::parse`, which keeps the string it accepts;
`getPath` fetches and parses a derivation; `arrival` is the order in which fetches finish;
`attrs` are the attributes read off a derivation's environment. -/
structure Resolver (δ ν ε : Type*) where
  parsePath : String → Option ε
  getPath : String → Except ε (Derivation δ)
  arrival : List String → List String
  arrival_perm : ∀ paths, (arrival paths).Perm paths
  attrs : Derivation δ → ν

inductive ResolveError (ε : Type*)
  | fetch (source : ε)
  | drvCacheFull (count cap : Nat)

inductive ReconstructError (ε : Type*)
  | limitExceeded (count cap : Nat)
  | invalidInput (drvPath childPath : String) (source : ε)
  | cannotResolve (frontierLen levels : Nat) (source : ResolveError ε)
  | target (source : ResolveError ε)

variable {δ ν : Type u} {ε : Type*} (r : Resolver δ ν ε) (cap : Nat)

def insertDrvBounded (cache : DrvCache δ) (path : String) (drv : Derivation δ) :
    Option (DrvCache δ) :=
  if cap ≤ cache.keys.card ∧ path ∉ cache.keys then none else some (cache.insert path drv)

def resolveDerivation (drvPath : String) (cache : DrvCache δ) :
    Except (ResolveError ε) (Derivation δ × DrvCache δ) :=
  match cache.lookup drvPath with
  | some cached => .ok (cached, cache)
  | none =>
    match r.getPath drvPath with
    | .error source => .error (.fetch source)
    | .ok drv =>
      match insertDrvBounded cap cache drvPath drv with
      | none => .error (.drvCacheFull cache.keys.card cap)
      | some cache => .ok (drv, cache)

/-- The fetches in the order in which they finish; the first error is returned. -/
def fetchAll (paths : List String) : Except (ResolveError ε) (List (String × Derivation δ)) :=
  paths.mapM fun p =>
    match r.getPath p with
    | .error source => .error (.fetch source)
    | .ok drv => .ok (p, drv)

def cacheAll (fetched : List (String × Derivation δ)) (cache : DrvCache δ) :
    Except (ResolveError ε) (DrvCache δ) :=
  fetched.foldlM (fun cache x =>
    match insertDrvBounded cap cache x.1 x.2 with
    | none => .error (.drvCacheFull cache.keys.card cap)
    | some cache => .ok cache) cache

def resolveDerivationsBatch (paths : List String) (cache : DrvCache δ) :
    Except (ResolveError ε) (List (String × Derivation δ) × DrvCache δ) :=
  let resolved := paths.filterMap fun p => (cache.lookup p).map (p, ·)
  let toFetch := paths.filter fun p => p ∉ cache.keys
  if toFetch = [] then .ok (resolved, cache)
  else if cap < cache.keys.card + toFetch.length then
    .error (.drvCacheFull (cache.keys.card + toFetch.length) cap)
  else do
    let fetched ← fetchAll r (r.arrival toFetch)
    let cache ← cacheAll cap fetched cache
    return (resolved ++ fetched, cache)

def buildNode (drvPath : String) (drv : Derivation δ) : Node ν where
  drvPath := drvPath
  drvHash := drvPath
  wantedOutputNames := []
  drvContent := []
  rest :=
    { outputNames := drv.outputs.map DerivationOutput.name
      expectedOutputPaths := drv.outputs.map DerivationOutput.path
      isFixedOutput := drv.isFixedOutput
      isContentAddressed := drv.isContentAddressed
      needsResolve := drv.hasCaFloatingOutputs
      explicitlyRequested := false
      attrs := r.attrs drv }

structure Bfs (ν : Type*) where
  nodes : List (Node ν) := []
  edges : List DerivationEdge := []
  visited : Finset String
  count : Nat := 0
  frontier : List String := []

def visitInput (drvPath : String) (b : Bfs ν) (childPath : String) :
    Except (ReconstructError ε) (Bfs ν) :=
  let b := { b with edges := b.edges ++ [⟨drvPath, childPath⟩] }
  if childPath ∈ b.visited then .ok b
  else
    match r.parsePath childPath with
    | some source => .error (.invalidInput drvPath childPath source)
    | none => .ok
      { b with
        visited := insert childPath b.visited
        frontier := b.frontier ++ [childPath] }

def visitNode (b : Bfs ν) (x : String × Derivation δ) : Except (ReconstructError ε) (Bfs ν) :=
  let b := { b with count := b.count + 1 }
  if cap < b.count then .error (.limitExceeded b.count cap)
  else x.2.inputPaths.foldlM (visitInput r x.1) { b with nodes := b.nodes ++ [buildNode r x.1 x.2] }

/-- The levels of the search.  Every level counts a node, so after `cap` of them the next node
is one too many. -/
def bfsLevels : Nat → Nat → List (String × Derivation δ) → Bfs ν → DrvCache δ →
    Except (ReconstructError ε) (Bfs ν × DrvCache δ)
  | _, _, [], b, cache => .ok (b, cache)
  | 0, _, _ :: _, b, _ => .error (.limitExceeded (b.count + 1) cap)
  | fuel + 1, levels, current, b, cache => do
    let b ← current.foldlM (visitNode r cap) { b with frontier := [] }
    if b.frontier = [] then return (b, cache)
    else if cap < b.count + b.frontier.length then
      throw (.limitExceeded (b.count + b.frontier.length) cap)
    else
      match resolveDerivationsBatch r cap b.frontier cache with
      | .error source => throw (.cannotResolve b.frontier.length (levels + 1) source)
      | .ok (current, cache) => bfsLevels fuel (levels + 1) current b cache

def iterCachedDrvs (nodes : List (Node ν)) (cache : DrvCache δ) :
    List (Node ν × Derivation δ) :=
  nodes.filterMap fun node =>
    match r.parsePath node.drvPath with
    | some _ => none
    | none => (cache.lookup node.drvPath).map (node, ·)

def isDeferred (cache : DrvCache δ) (drv : Derivation δ) : Bool :=
  drv.inputPaths.any fun childPath =>
    match r.parsePath childPath with
    | some _ => false
    | none => (cache.lookup childPath).any Derivation.hasUnknownOutputPaths

def populateNeedsResolve (cache : DrvCache δ) (nodes : List (Node ν)) : List (Node ν) :=
  nodes.map fun node =>
    match iterCachedDrvs r [node] cache with
    | (_, drv) :: _ =>
      if !node.rest.needsResolve && isDeferred r cache drv then
        { node with rest := { node.rest with needsResolve := true } }
      else node
    | [] => node

/-- `entry(key).or_default().extend(names)`. -/
def want (wanted : Map String (Finset String)) (x : String × Finset String) :
    Map String (Finset String) :=
  wanted.insert x.1 (wanted.row x.1 ∪ x.2)

def consumerWants (cache : DrvCache δ) (nodes : List (Node ν)) : Map String (Finset String) :=
  (iterCachedDrvs r nodes cache).foldl (fun wanted x => x.2.inputDrvs.foldl want wanted) ∅

/-- The root's own demand; the flag is that it is for all outputs. -/
def rootWants (wanted : Map String (Finset String)) (rootPath : String) :
    Option OutputSpec → Map String (Finset String) × Bool
  | some (.names names _) => (want wanted (rootPath, names.toFinset), false)
  | some .all | none => (wanted, true)

def markRequested (rootPath : String) (node : Node ν) : Node ν :=
  if node.drvPath = rootPath then
    { node with rest := { node.rest with explicitlyRequested := true } }
  else node

def applyDemand (wanted : Map String (Finset String)) (rootWantsAll : Bool) (rootPath : String)
    (node : Node ν) : Node ν :=
  if rootWantsAll ∧ node.drvPath = rootPath then { node with wantedOutputNames := [] }
  else
    match wanted.lookup node.drvPath with
    | some names => { node with wantedOutputNames := names.sort }
    | none => node

def populateWantedOutputs (cache : DrvCache δ) (rootPath : String)
    (rootOutputs : Option OutputSpec) (nodes : List (Node ν)) : List (Node ν) :=
  let (wanted, rootWantsAll) := rootWants (consumerWants r cache nodes) rootPath rootOutputs
  nodes.map fun node => applyDemand wanted rootWantsAll rootPath (markRequested rootPath node)

def reconstructDag (rootPath : String) (rootDrv : Derivation δ) (rootOutputs : Option OutputSpec)
    (cache : DrvCache δ) :
    Except (ReconstructError ε) ((List (Node ν) × List DerivationEdge) × DrvCache δ) := do
  let (b, cache) ← bfsLevels r cap cap 0 [(rootPath, rootDrv)] { visited := {rootPath} } cache
  let nodes := populateNeedsResolve r cache b.nodes
  let nodes := populateWantedOutputs r cache rootPath rootOutputs nodes
  return ((nodes, b.edges), cache)

def mergeDemand (kept node : Node ν) : Node ν :=
  { kept with
    wantedOutputNames := unionWantedSaturating kept.wantedOutputNames node.wantedOutputNames
    rest := { kept.rest with
      explicitlyRequested := kept.rest.explicitlyRequested || node.rest.explicitlyRequested } }

def dedupNode (st : Map String Nat × List (Node ν)) (node : Node ν) :
    Map String Nat × List (Node ν) :=
  match st.1.lookup node.drvPath with
  | none => (st.1.insert node.drvPath st.2.length, st.2 ++ [node])
  | some i => (st.1, st.2.modify i (mergeDemand · node))

def dedupEdge (st : Finset (String × String) × List DerivationEdge) (e : DerivationEdge) :
    Finset (String × String) × List DerivationEdge :=
  if (e.parentDrvPath, e.childDrvPath) ∈ st.1 then st
  else (insert (e.parentDrvPath, e.childDrvPath) st.1, st.2 ++ [e])

def dedupDag (nodes : List (Node ν)) (edges : List DerivationEdge) :
    List (Node ν) × List DerivationEdge :=
  ((nodes.foldl dedupNode (∅, [])).2, (edges.foldl dedupEdge (∅, [])).2)

structure Target where
  drv : String
  outputs : OutputSpec

def resolveBuiltDag (t : Target) (cache : DrvCache δ) :
    Except (ReconstructError ε) ((List (Node ν) × List DerivationEdge) × DrvCache δ) :=
  match resolveDerivation r cap t.drv cache with
  | .error source => .error (.target source)
  | .ok (drv, cache) => reconstructDag r cap t.drv drv (some t.outputs) cache

def collectDags : List Target → DrvCache δ →
    Except (ReconstructError ε) ((List (Node ν) × List DerivationEdge) × DrvCache δ)
  | [], cache => .ok (([], []), cache)
  | t :: targets, cache => do
    let ((nodes, edges), cache) ← resolveBuiltDag r cap t cache
    let ((nodes', edges'), cache) ← collectDags targets cache
    return ((nodes ++ nodes', edges ++ edges'), cache)

def submittedDag (targets : List Target) (cache : DrvCache δ) :
    Except (ReconstructError ε) (List (Node ν) × List DerivationEdge) := do
  let ((nodes, edges), _) ← collectDags r cap targets cache
  return dedupDag nodes edges

end RioBuild.Gateway
