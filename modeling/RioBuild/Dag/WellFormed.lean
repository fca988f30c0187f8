import RioBuild.Dag.Undo

namespace RioBuild.Dag

open Lib

variable {ν : Type*}

def Determined (ids : Set (DrvHash × String)) : Prop :=
  ∀ a ∈ ids, ∀ b ∈ ids, a.1 = b.1 ↔ a.2 = b.2

theorem Determined.path_eq (hids : Determined ids) (hp : (h, path) ∈ ids)
    (hp' : (h, path') ∈ ids) : path = path' :=
  (hids _ hp _ hp').mp rfl

theorem Determined.hash_eq (hids : Determined ids) (hh : (h, path) ∈ ids) (hh' : (h', path) ∈ ids) :
    h = h' :=
  (hids _ hh _ hh').mpr rfl

theorem Determined.mono (hids : Determined ids') (hs : ids ⊆ ids') : Determined ids :=
  fun a ha b hb => hids a (hs ha) b (hs hb)

def Submission.ids (sub : Submission ν) : Set (DrvHash × String) :=
  {id | ∃ node ∈ sub.nodes, (node.drvHash, node.drvPath) = id}

namespace DerivationDag

def ids (dag : DerivationDag ρ) : Set (DrvHash × String) :=
  {id | (dag.nodes.lookup id.1).map DerivationState.drvPath = some id.2}

variable {dag : DerivationDag ρ}

theorem mem_ids : (h, path) ∈ dag.ids ↔ ∃ s, dag.nodes.lookup h = some s ∧ s.drvPath = path :=
  Option.map_eq_some_iff

theorem mem_nodes_iff : h ∈ dag.nodes ↔ ∃ path, (h, path) ∈ dag.ids := by
  simp [mem_ids, Finmap.mem_iff]

theorem mem_ids_of_mem_nodes {ids : Set (DrvHash × String)}
    (hd : Determined ids) (hids : dag.ids ⊆ ids) (hm : (h, path) ∈ ids)
    (hn : h ∈ dag.nodes) : (h, path) ∈ dag.ids := by
  obtain ⟨path', hp'⟩ := mem_nodes_iff.mp hn
  obtain rfl := hd.path_eq (hids hp') hm
  exact hp'

structure WellFormed (dag : DerivationDag ρ) : Prop where
  inverse : ∀ p c, p ∈ dag.parents.row c ↔ c ∈ dag.children.row p
  present : ∀ p c, c ∈ dag.children.row p → p ∈ dag.nodes ∧ c ∈ dag.nodes
  index : ∀ path h, dag.pathToHash.lookup path = some h ↔ (h, path) ∈ dag.ids

def Added (log : MergeResult ρ) (h : DrvHash) : Prop := h ∈ log.newlyInserted ∧ h ∉ restoring log

/-- What undoing needs of a DAG and a log.  A node that was taken out may be missing. -/
structure Undoable (ids : Set (DrvHash × String)) (log : MergeResult ρ) (dag : DerivationDag ρ) :
    Prop where
  unmarked : ∀ h ∈ restoring log, h ∉ log.interestAdded ∧ h ∉ log.traceparentUpgraded
  removed_ids : ∀ e ∈ log.removedRetriable, (e.1, e.2.drvPath) ∈ ids
  node_ids : dag.ids ⊆ ids
  indexed : ∀ path h, (h, path) ∈ dag.ids → dag.pathToHash.lookup path = some h
  index : ∀ path h, dag.pathToHash.lookup path = some h →
    (h, path) ∈ ids ∧ (h ∈ dag.nodes ∨ h ∈ restoring log)
  inverse : ∀ p c, p ∈ dag.parents.row c ↔ c ∈ dag.children.row p
  present : ∀ p c, c ∈ dag.children.row p →
    (p ∈ dag.nodes ∨ p ∈ restoring log) ∧ (c ∈ dag.nodes ∨ c ∈ restoring log)
  added : ∀ p c, c ∈ dag.children.row p → (p, c) ∉ log.newEdges → ¬Added log p ∧ ¬Added log c

variable {ids : Set (DrvHash × String)} {log : MergeResult ρ} {dag : DerivationDag ρ}
variable {order : IterOrder} {buildId : Uuid} {h : DrvHash} {path : String}

theorem exists_removed (hr : h ∈ restoring log) : ∃ s, (h, s) ∈ log.removedRetriable := by
  obtain ⟨e, he, rfl⟩ := List.mem_map.mp hr
  exact ⟨e.2, he⟩

namespace Undoable

section

variable (hids : Determined ids)
include hids

section

variable (hdag : Undoable ids log dag)
include hdag

theorem mem_ids_rollbackMerge : (h, path) ∈ (dag.rollbackMerge order buildId log).ids ↔
    (h, path) ∈ ids ∧ (h ∈ restoring log ∨ h ∉ log.newlyInserted ∧ h ∈ dag.nodes) := by
  rw [DerivationDag.ids, Set.mem_ofPred_eq, lookup_rollbackMerge hdag.unmarked, undoNode]
  cases hl : (log.removedRetriable.filter (·.1 = h)).getLast? with
  | some e =>
    obtain ⟨he, rfl⟩ := Map.mem_of_getLast?_filter hl
    have hr : e.1 ∈ restoring log := List.mem_map_of_mem he
    have hp := hdag.removed_ids e he
    simp only [Option.map_some, Option.some.injEq, hr, true_or, and_true]
    exact ⟨fun heq => heq ▸ hp, fun hm => hids.path_eq hp hm⟩
  | none =>
    have hr := getLast?_eq_none_iff_notMem_restoring.mp hl
    by_cases hi : h ∈ log.newlyInserted
    · simp [hi, hr]
    · simp only [hi, if_false, hr, not_false_eq_true, true_and, false_or, Option.map_map]
      refine ⟨fun hm => ⟨hdag.node_ids hm, mem_nodes_iff.mpr ⟨path, hm⟩⟩, ?_⟩
      exact fun ⟨hm, hn⟩ => mem_ids_of_mem_nodes hids hdag.node_ids hm hn

theorem path_rollbackMerge : (dag.rollbackMerge order buildId log).pathToHash.lookup path = some h ↔
    (h, path) ∈ ids ∧ (h ∈ restoring log ∨ h ∉ log.newlyInserted ∧ h ∈ dag.nodes) := by
  rw [DerivationDag.path_rollbackMerge]
  constructor
  · rintro (hl | ⟨hno, hp, hf⟩)
    · obtain ⟨e, he, rfl⟩ := Option.map_eq_some_iff.mp hl
      obtain ⟨hm, rfl⟩ := Map.mem_of_getLast?_filter he
      exact ⟨hdag.removed_ids e hm, .inl (List.mem_map_of_mem hm)⟩
    · obtain ⟨hm, hn | hr⟩ := hdag.index path h hp
      · refine ⟨hm, .inr ⟨fun hi => ?_, hn⟩⟩
        obtain ⟨s, hs, hp⟩ := mem_ids.mp (mem_ids_of_mem_nodes hids hdag.node_ids hm hn)
        exact hf h hi s hs hp
      · exact ⟨hm, .inl hr⟩
  · rintro ⟨hm, hh⟩
    by_cases hr : h ∈ restoring log
    · obtain ⟨s, hs⟩ := exists_removed hr
      have hs' : s.drvPath = path := hids.path_eq (hdag.removed_ids _ hs) hm
      cases hl : (log.removedRetriable.filter (·.2.drvPath = path)).getLast? with
      | none => exact absurd hs' (Map.getLast?_filter_eq_none.mp hl _ hs)
      | some e =>
        obtain ⟨he, rfl⟩ := Map.mem_of_getLast?_filter hl
        exact .inl (congrArg some (hids.hash_eq (hdag.removed_ids e he) hm))
    · obtain ⟨hi, hn⟩ := hh.resolve_left hr
      have hp := mem_ids_of_mem_nodes hids hdag.node_ids hm hn
      refine .inr ⟨fun e he heq => hr ?_, hdag.indexed _ _ hp, fun h' hi' s hs heq => hi ?_⟩
      · rw [hids.hash_eq hm (heq ▸ hdag.removed_ids e he)]
        exact List.mem_map_of_mem he
      · rw [hids.hash_eq hm (hdag.node_ids (mem_ids.mpr ⟨s, hs, heq⟩))]
        exact hi'

theorem mem_nodes_rollbackMerge (hh : h ∈ dag.nodes ∨ h ∈ restoring log) (ha : ¬Added log h) :
    h ∈ (dag.rollbackMerge order buildId log).nodes := by
  by_cases hr : h ∈ restoring log
  · obtain ⟨s, hs⟩ := exists_removed hr
    refine mem_nodes_iff.mpr ⟨s.drvPath, ?_⟩
    exact (mem_ids_rollbackMerge hids hdag).mpr ⟨hdag.removed_ids _ hs, .inl hr⟩
  · have hn := hh.resolve_right hr
    obtain ⟨path, hp⟩ := mem_nodes_iff.mp hn
    refine mem_nodes_iff.mpr ⟨path, (mem_ids_rollbackMerge hids hdag).mpr ?_⟩
    exact ⟨hdag.node_ids hp, .inr ⟨fun hi => ha ⟨hi, hr⟩, hn⟩⟩

theorem ids_rollbackMerge_subset : (dag.rollbackMerge order buildId log).ids ⊆ ids :=
  fun ⟨_, _⟩ hm => ((mem_ids_rollbackMerge hids hdag).mp hm).1

theorem wellFormed_rollbackMerge : (dag.rollbackMerge order buildId log).WellFormed where
  inverse p c := by
    rw [mem_parents_rollbackMerge, mem_children_rollbackMerge, hdag.inverse]
    constructor
    · rintro ⟨hc, hn, _⟩
      exact ⟨hc, hn, (hdag.added p c hc hn).1⟩
    · rintro ⟨hc, hn, _⟩
      exact ⟨hc, hn, (hdag.added p c hc hn).2⟩
  present p c hc := by
    obtain ⟨hc, hn, _⟩ := mem_children_rollbackMerge.mp hc
    obtain ⟨hp, hc'⟩ := hdag.present p c hc
    obtain ⟨had, ha⟩ := hdag.added p c hc hn
    exact ⟨mem_nodes_rollbackMerge hids hdag hp had, mem_nodes_rollbackMerge hids hdag hc' ha⟩
  index path h := by rw [path_rollbackMerge hids hdag, mem_ids_rollbackMerge hids hdag]

end

end

end Undoable

end DerivationDag

end RioBuild.Dag
