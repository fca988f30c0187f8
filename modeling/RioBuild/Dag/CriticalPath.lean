import RioBuild.Dag.Model
import RioBuild.Lib.Kahn
import RioBuild.Lib.Search

namespace RioBuild.Dag

open Lib

structure SchedHint (τ : Type*) where
  estDuration : τ
  priority : τ
  unblocks : UInt32
  deriving DecidableEq, Repr

structure Hinted (τ ρ : Type*) where
  sched : SchedHint τ
  rest : ρ

abbrev Listing := { list : Finset DrvHash → List DrvHash //
  ∀ s, (list s).Nodup ∧ ∀ h, h ∈ list s ↔ h ∈ s }

/-- The orders in which hash sets and maps are iterated.  Every topological sort has its own map of
degrees; that of `update_ancestors` is named by its argument. -/
structure SweepOrder where
  children : DrvHash → Listing
  parents : DrvHash → Listing
  scope : Listing
  degrees : Option DrvHash → Listing

structure SlaEstimator (τ ρ : Type*) where
  refEstimate : DerivationState (Hinted τ ρ) → Option τ
  peekTMin : DerivationState (Hinted τ ρ) → Option τ
  defaultDurationSecs : τ

namespace DerivationState

variable {τ : Type*}

def sched (s : DerivationState (Hinted τ ρ)) : SchedHint τ := s.rest.sched

def setSched (hint : SchedHint τ) (s : DerivationState (Hinted τ ρ)) :
    DerivationState (Hinted τ ρ) :=
  { s with rest := { s.rest with sched := hint } }

def setPriority (priority : τ) (s : DerivationState (Hinted τ ρ)) :
    DerivationState (Hinted τ ρ) :=
  s.setSched { s.sched with priority }

def livePriority (s : DerivationState (Hinted τ ρ)) : Option τ :=
  if s.status.isTerminal then none else some s.sched.priority

end DerivationState

namespace DerivationDag

section Topo

variable (order : SweepOrder) (dag : DerivationDag ρ)

def getParents (h : DrvHash) : List DrvHash := (order.parents h).1 (dag.parents.row h)

def getChildren (h : DrvHash) : List DrvHash := (order.children h).1 (dag.children.row h)

def kahnTopo (call : Option DrvHash) (scope : Finset DrvHash) : Option (List DrvHash) :=
  Kahn.sort (dag.getParents order) (fun h => ((dag.children.row h).filter (· ∈ scope)).card)
    ((order.degrees call).1 scope)

/-- The upward-reachable cone.  The loop ends within the fuel, one step for every time a hash is in
the queue. -/
def ancestorCone (start : DrvHash) : Option (Finset DrvHash) :=
  let all := dag.parents.keys.biUnion dag.parents.row
  let queue := dag.getParents order start
  Search.collect (dag.getParents order)
    (queue.length + ∑ h ∈ all, (dag.getParents order h).length) ∅ queue

end Topo

section Priorities

variable {τ ρ : Type*} [AddCommMonoid τ] [LinearOrder τ]

def nonterminalChildMax (order : SweepOrder) (dag : DerivationDag (Hinted τ ρ)) (h : DrvHash) : τ :=
  ((dag.getChildren order h).filterMap fun c =>
    (dag.nodes.lookup c).bind DerivationState.livePriority).foldl max 0

def recompute (order : SweepOrder) (dag : DerivationDag (Hinted τ ρ)) (h : DrvHash) :
    DerivationDag (Hinted τ ρ) :=
  let maxChild := dag.nonterminalChildMax order h
  dag.modifyNode h fun s => s.setPriority (s.sched.estDuration + maxChild)

def topoRecompute (order : SweepOrder) (call : Option DrvHash) (scope : Finset DrvHash)
    (dag : DerivationDag (Hinted τ ρ)) : Option (DerivationDag (Hinted τ ρ)) :=
  (dag.kahnTopo order call scope).map (·.foldl (recompute order) dag)

def updateAncestors (order : SweepOrder) (start : DrvHash) (dag : DerivationDag (Hinted τ ρ)) :
    Option (DerivationDag (Hinted τ ρ)) :=
  (dag.ancestorCone order start).bind fun cone => dag.topoRecompute order (some start) cone

def refreshEstimate (estimate : DerivationState (Hinted τ ρ) → Option τ) (default : τ)
    (dag : DerivationDag (Hinted τ ρ)) (h : DrvHash) : DerivationDag (Hinted τ ρ) :=
  let unblocks := UInt32.ofNat (dag.parents.row h).card
  dag.modifyNode h fun s =>
    s.setSched { s.sched with estDuration := (estimate s).getD default, unblocks }

def computeInitial (order : SweepOrder) (sla : SlaEstimator τ ρ) (newlyInserted : Finset DrvHash)
    (dag : DerivationDag (Hinted τ ρ)) : Option (DerivationDag (Hinted τ ρ)) :=
  if newlyInserted = ∅ then some dag
  else do
    let inserted := order.scope.1 newlyInserted
    let dag := inserted.foldl (refreshEstimate sla.refEstimate sla.defaultDurationSecs) dag
    let dag ← dag.topoRecompute order none newlyInserted
    inserted.foldlM (fun dag h =>
      if (dag.getParents order h).any (· ∉ newlyInserted) then dag.updateAncestors order h
      else some dag) dag

def fullSweep (order : SweepOrder) (sla : SlaEstimator τ ρ) (dag : DerivationDag (Hinted τ ρ)) :
    Option (DerivationDag (Hinted τ ρ)) :=
  let nonTerminal := dag.nodes.keysWhere fun s => !s.status.isTerminal
  if nonTerminal = ∅ then some dag
  else
    let dag := (order.scope.1 nonTerminal).foldl
      (refreshEstimate sla.peekTMin sla.defaultDurationSecs) dag
    dag.topoRecompute order none nonTerminal

end Priorities

end DerivationDag

end RioBuild.Dag
