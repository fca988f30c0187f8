import RioBuild.Dag.Acyclic
import RioBuild.Dag.Rollback

namespace RioBuild.Dag

open Lib Relation DerivationDag List

variable {ν ρ ε : Type*}

/-- An operation on the DAG.  `nodeMut` is what the rest of the scheduler does to a node. -/
inductive DagEvent (ν ρ : Type*)
  | merge (order : IterOrder) (sub : Submission ν)
  | rollback (order : IterOrder)
  | removeNode (order : IterOrder) (h : DrvHash)
  | removeBuildInterestAndReap (order : IterOrder) (buildId : Uuid)
  | nodeMut (h : DrvHash) (f : DerivationState ρ → DerivationState ρ)
  | noteResubmitFloor (h : DrvHash) (floor : UInt32)
  | setSoftFeatures (soft : List String)

/-- The DAG, with the accepted merges that were not rolled back, the latest first. -/
structure History (ρ : Type*) where
  dag : DerivationDag ρ := {}
  merged : List (Uuid × MergeResult ρ) := []

namespace History

def merge (parsers : NodeParsers ν ρ ε) (order : IterOrder) (sub : Submission ν)
    (st : History ρ) : History ρ :=
  match st.dag.merge parsers order sub with
  | (dag, .ok log) => { dag, merged := (sub.buildId, log) :: st.merged }
  | (dag, .error _) => { st with dag }

def rollback (order : IterOrder) (st : History ρ) : History ρ :=
  match st.merged with
  | (buildId, log) :: merged => { dag := st.dag.rollbackMerge order buildId log, merged }
  | [] => st

def step (parsers : NodeParsers ν ρ ε) (st : History ρ) : DagEvent ν ρ → History ρ
  | .merge order sub => st.merge parsers order sub
  | .rollback order => st.rollback order
  | .removeNode order h => { st with dag := st.dag.removeNode order h }
  | .removeBuildInterestAndReap order buildId =>
    { st with dag := (st.dag.removeBuildInterestAndReap order buildId).1 }
  | .nodeMut h f =>
    -- the hash and the path of a node are set when it is made
    { st with dag := st.dag.modifyNode h fun s =>
      { f s with drvHash := s.drvHash, drvPath := s.drvPath } }
  | .noteResubmitFloor h floor =>
    { st with dag := { st.dag with resubmitFloors := st.dag.resubmitFloors.insert h floor } }
  | .setSoftFeatures softFeatures => { st with dag := { st.dag with softFeatures } }

def run (parsers : NodeParsers ν ρ ε) (events : List (DagEvent ν ρ)) : History ρ :=
  events.foldl (step parsers) {}

/-- The accepted merges can be undone, the latest first: apart from the edges of a merge, none
meets a node it added, and in the end none is left. -/
def Unwinds (ids : Set (DrvHash × String)) :
    (DrvHash → DrvHash → Prop) → List (Uuid × MergeResult ρ) → Prop
  | edge, [] => ∀ p c, ¬edge p c
  | edge, (_, log) :: merged =>
    (∀ h ∈ restoring log, h ∉ log.interestAdded ∧ h ∉ log.traceparentUpgraded) ∧
      (∀ e ∈ log.removedRetriable, (e.1, e.2.drvPath) ∈ ids) ∧
      (∀ p c, edge p c → (p, c) ∉ log.newEdges → ¬Added log p ∧ ¬Added log c) ∧
      Unwinds ids (fun p c => edge p c ∧ (p, c) ∉ log.newEdges) merged

structure Inv (ids : Set (DrvHash × String)) (st : History ρ) : Prop where
  wellFormed : st.dag.WellFormed
  acyclic : st.dag.Acyclic
  node_ids : st.dag.ids ⊆ ids
  unwinds : Unwinds ids st.dag.Edge st.merged

variable {ids : Set (DrvHash × String)} {parsers : NodeParsers ν ρ ε}
variable {dag : DerivationDag ρ} {merged : List (Uuid × MergeResult ρ)}
theorem Unwinds.mono (hs : ∀ p c, edge' p c → edge p c) (h : Unwinds ids edge merged) :
    Unwinds ids edge' merged := by
  induction merged generalizing edge edge' with
  | nil => exact fun p c hp => h p c (hs p c hp)
  | cons entry merged ih =>
    obtain ⟨hu, hr, ha, hre⟩ := h
    refine ⟨hu, hr, fun p c hp => ha p c (hs p c hp), ?_⟩
    exact ih (fun p c hp => ⟨hs p c hp.1, hp.2⟩) hre

theorem Inv.shrink (hs : Inv ids st) (hd : dag.WellFormed)
    (he : ∀ p c, dag.Edge p c → st.dag.Edge p c) (hi : dag.ids ⊆ ids) :
    Inv ids { st with dag } where
  wellFormed := hd
  acyclic := hs.acyclic.mono he
  node_ids := hi
  unwinds := hs.unwinds.mono he

theorem Inv.undoable (hs : Inv ids st) (hme : st.merged = (buildId, log) :: merged) :
    Undoable ids log st.dag := by
  have hu := hs.unwinds
  rw [hme] at hu
  obtain ⟨hum, hr, ha, _⟩ := hu
  exact {
    unmarked := hum
    removed_ids := hr
    node_ids := hs.node_ids
    indexed := fun path h => (hs.wellFormed.index path h).mpr
    index := fun path h hh => by
      have hm := (hs.wellFormed.index path h).mp hh
      exact ⟨hs.node_ids hm, .inl (mem_nodes_iff.mpr ⟨path, hm⟩)⟩
    inverse := hs.wellFormed.inverse
    present := fun p c hc => (hs.wellFormed.present p c hc).imp .inl .inl
    added := ha }

theorem Inv.rollback (order : IterOrder) (hd : Determined ids) (hs : Inv ids st) :
    Inv ids (st.rollback order) := by
  unfold History.rollback
  split
  · rename_i buildId log merged hm
    have hu := hs.undoable hm
    have hun := hs.unwinds
    rw [hm] at hun
    have he : ∀ p c, (st.dag.rollbackMerge order buildId log).Edge p c →
        st.dag.Edge p c ∧ (p, c) ∉ log.newEdges := by
      intro p c hc
      obtain ⟨hc, hn, _⟩ := mem_children_rollbackMerge.mp hc
      exact ⟨hc, hn⟩
    exact {
      wellFormed := hu.wellFormed_rollbackMerge hd
      acyclic := hs.acyclic.mono fun p c hc => (he p c hc).1
      node_ids := hu.ids_rollbackMerge_subset hd
      unwinds := hun.2.2.2.mono he }
  · exact hs

theorem Inv.refused (order : IterOrder) (hd : Determined ids) (hs : Inv ids st)
    (hm : Merging.Reached ids sub st.dag m) :
    Inv ids { st with dag := m.dag.rollbackMerge order sub.buildId m.log } := by
  have hu := hm.undoable hs.wellFormed hs.node_ids
  refine hs.shrink (hu.wellFormed_rollbackMerge hd) (fun p c hc => ?_)
    (hu.ids_rollbackMerge_subset hd)
  obtain ⟨hc, hn, _⟩ := mem_children_rollbackMerge.mp hc
  exact ((hm.edges.children p c).mp hc).resolve_right hn

theorem Inv.accepted (order : IterOrder) (hd : Determined ids) (hs : Inv ids st)
    (hm : Merging.Reached ids sub st.dag m) (hw : m.Whole)
    (hcy : m.dag.hasCycleFromAny order (dfsStarts order m.log) ≠ some true) :
    Inv ids { dag := m.dag, merged := (sub.buildId, m.log) :: st.merged } := by
  have hu := hm.undoable hs.wellFormed hs.node_ids
  rw [ne_eq, hm.edges.linked.hasCycleFromAny_iff order hs.acyclic] at hcy
  exact {
    wellFormed := hm.wellFormed hd hs.wellFormed hs.node_ids hw
    acyclic := fun v hv => hcy ⟨v, hv⟩
    node_ids := hm.nodes.node_ids
    unwinds := by
      refine ⟨hu.unmarked, hu.removed_ids, hu.added, hs.unwinds.mono ?_⟩
      rintro p c ⟨hc, hn⟩
      exact ((hm.edges.children p c).mp hc).resolve_right hn }

theorem Inv.merge (order : IterOrder) (hd : Determined ids) (hs : Inv ids st)
    (hsu : sub.ids ⊆ ids) : Inv ids (st.merge parsers order sub) := by
  have he := Merging.ends_merge_reached parsers order hs.wellFormed hs.node_ids hsu hd
  unfold History.merge
  generalize st.dag.merge parsers order sub = r at he
  cases he with
  | invalid m node source hnd hso hm | cycle m hn hm hw hc =>
    exact hs.refused order hd hm
  | accepted m hn hm hw hc => exact hs.accepted order hd hm hw hc

structure Shrunk (dag dag' : DerivationDag ρ) : Prop where
  wellFormed : dag'.WellFormed
  edge : ∀ p c, dag'.Edge p c → dag.Edge p c
  ids : dag'.ids ⊆ dag.ids

theorem Shrunk.removeNode (order : IterOrder) (h : DrvHash) (hd : Shrunk dag dag') :
    Shrunk dag (dag'.removeNode order h) where
  wellFormed := hd.wellFormed.removeNode order h
  edge p c hc := hd.edge p c ((mem_children_removeNode hd.wellFormed.inverse).mp hc).1
  ids := fun ⟨_, _⟩ hm => hd.ids (mem_ids_removeNode.mp hm).1

theorem Shrunk.modifyNode (hf : ∀ s, (f s).drvPath = s.drvPath) (h : DrvHash)
    (hd : Shrunk dag dag') : Shrunk dag (dag'.modifyNode h f) where
  wellFormed := hd.wellFormed.modifyNode hf h
  edge := hd.edge
  ids := by
    rw [ids_modifyNode hf]
    exact hd.ids

theorem Shrunk.fields (hd : dag.WellFormed) (softFeatures : List String)
    (resubmitFloors : Map String UInt32) :
    Shrunk dag { dag with softFeatures, resubmitFloors } where
  wellFormed := ⟨hd.inverse, hd.present, hd.index⟩
  edge _ _ := id
  ids := subset_rfl

theorem Inv.shrunk (hs : Inv ids st) (hd : Shrunk st.dag dag) : Inv ids { st with dag } :=
  hs.shrink hd.wellFormed hd.edge (hd.ids.trans hs.node_ids)

theorem Inv.step (hde : Determined ids) (hs : Inv ids st)
    (he : ∀ order sub, event = .merge order sub → sub.ids ⊆ ids) :
    Inv ids (st.step parsers event) := by
  have hse : Shrunk st.dag st.dag := ⟨hs.wellFormed, fun _ _ => id, subset_rfl⟩
  cases event with
  | merge order sub => exact hs.merge order hde (he order sub rfl)
  | rollback order => exact hs.rollback order hde
  | removeNode order h => exact hs.shrunk (hse.removeNode order h)
  | removeBuildInterestAndReap order buildId =>
    refine hs.shrunk (reap_rule (fun dag h hd => ?_) (fun dag h hd => hd.removeNode order h) hse)
    refine hd.modifyNode ?_ h
    exact fun _ => rfl
  | nodeMut h f =>
    refine hs.shrunk (hse.modifyNode ?_ h)
    exact fun _ => rfl
  | noteResubmitFloor h floor | setSoftFeatures soft =>
    exact hs.shrunk (.fields hs.wellFormed _ _)

theorem Inv.empty : Inv ids ({} : History ρ) where
  wellFormed := {
    inverse := fun p c => by simp [Map.row]
    present := fun p c hc => by simp [Map.row] at hc
    index := fun path h => by simp [mem_ids] }
  acyclic v hv := by
    obtain ⟨c, hc, _⟩ := TransGen.head'_iff.mp hv
    simp [Edge, Map.row] at hc
  node_ids := fun ⟨h, path⟩ hm => by simp [mem_ids] at hm
  unwinds p c := by simp [Edge, Map.row]

def eventIds (events : List (DagEvent ν ρ)) : Set (DrvHash × String) :=
  {id | ∃ order sub, DagEvent.merge order sub ∈ events ∧ id ∈ sub.ids}

theorem Inv.run (hd : Determined ids) (hev : eventIds events ⊆ ids) :
    Inv ids (run parsers events) := by
  refine foldlRecOn _ _ Inv.empty fun st hs event he => hs.step hd ?_
  rintro order sub rfl id hi
  exact hev ⟨order, sub, he, hi⟩

/-- After every step the indices agree, there is no cycle, and a merge of valid paths is refused
exactly when it would make one. -/
theorem dag_acyclic_and_check_exact (parsers : NodeParsers ν ρ ε) (events : List (DagEvent ν ρ))
    (hdet : Determined (eventIds events)) : (∀ before after, events = before ++ after →
      (run parsers before).dag.WellFormed ∧ (run parsers before).dag.Acyclic) ∧
    ∀ before order sub after, events = before ++ .merge order sub :: after →
      (∀ node ∈ sub.nodes, parsers.parsePath node.drvPath = none) →
      (((run parsers before).dag.merge parsers order sub).2 = .error .cycleDetected ↔
        ∃ v, TransGen ((run parsers before).dag.MergedEdge sub) v v) := by
  have hi before after (heq : events = before ++ after) :
      Inv (eventIds events) (run parsers before) := by
    refine Inv.run hdet ?_
    rintro id ⟨order, sub, hm, hid⟩
    exact ⟨order, sub, heq ▸ mem_append_left _ hm, hid⟩
  refine ⟨fun before after heq => ?_, fun before order sub after heq hv => ?_⟩
  · have hs := hi before after heq
    exact ⟨hs.wellFormed, hs.acyclic⟩
  · have hs := hi before _ heq
    have hsu : sub.ids ⊆ eventIds events := fun id hid =>
      ⟨order, sub, by simp [heq], hid⟩
    exact merge_cycleDetected_iff order hs.wellFormed hs.acyclic
      (hdet.mono (Set.union_subset hs.node_ids hsu)) hv

theorem Unwinds.recorded (h : Unwinds ids edge merged) (he : edge p c) :
    ∃ x ∈ merged, (p, c) ∈ x.2.newEdges := by
  induction merged generalizing edge with
  | nil => exact absurd he (h p c)
  | cons x merged ih =>
    by_cases hx : (p, c) ∈ x.2.newEdges
    · exact ⟨x, mem_cons_self, hx⟩
    · obtain ⟨y, hy, hc⟩ := ih h.2.2.2 ⟨he, hx⟩
      exact ⟨y, mem_cons_of_mem _ hy, hc⟩

def loneNode : Submission Unit where
  buildId := 2
  nodes := [⟨"/a", "a", [], [], ()⟩]
  edges := []
  traceparent := ""

def cycleRefused : List (DagEvent Unit Unit) :=
  [.merge (iterFrom ["a"]) loneNode, .rollback (iterFrom ["a"]), .merge (iterFrom ["a"]) loneNode,
    .merge (iterFrom ["a", "b"]) twoCycle]

theorem determined_cycleRefused : Determined (eventIds cycleRefused) := by
  refine determined_pairs.mono ?_
  rintro id ⟨order, sub, hm, node, hn, rfl⟩
  simp only [cycleRefused, mem_cons, not_mem_nil, or_false, reduceCtorEq, false_or] at hm
  obtain ⟨-, rfl⟩ | ⟨-, rfl⟩ | ⟨-, rfl⟩ := hm
  all_goals simp only [loneNode, twoCycle, mem_cons, not_mem_nil, or_false] at hn
  · simp [hn]
  · simp [hn]
  · obtain rfl | rfl := hn <;> simp

theorem dag_acyclic_cycleRefused :
    ((run anyPath cycleRefused).dag.WellFormed ∧ (run anyPath cycleRefused).dag.Acyclic) ∧
      ∃ v, TransGen ((run anyPath (cycleRefused.take 3)).dag.MergedEdge twoCycle) v v := by
  obtain ⟨hi, he⟩ :=
    dag_acyclic_and_check_exact anyPath cycleRefused determined_cycleRefused
  refine ⟨hi cycleRefused [] (append_nil _).symm, ?_⟩
  refine (he _ (iterFrom ["a", "b"]) twoCycle [] rfl fun _ _ => rfl).mp ?_
  exact eq_of_isCycleDetected (by decide +kernel)

end History

end RioBuild.Dag
