import RioBuild.Dag.Run

/-! Which of the submitted edges a merge puts in.  Edges name paths, and only a node that is
inserted has its path indexed. -/

namespace RioBuild.Dag

open Lib DerivationDag List

variable {ν ρ ε : Type*}

namespace DerivationDag

def inserts (dag : DerivationDag ρ) (sub : Submission ν) (node : DerivationNode ν) : Bool :=
  (dag.nodes.lookup node.drvHash).all (·.mintsEpochOnResubmit (sub.isRoot node.drvPath))

def indexStep (dag : DerivationDag ρ) (sub : Submission ν)
    (x : Finset DrvHash × Map String DrvHash) (node : DerivationNode ν) :
    Finset DrvHash × Map String DrvHash :=
  if node.drvHash ∉ x.1 ∧ dag.inserts sub node then
    (insert node.drvHash x.1, x.2.insert node.drvPath node.drvHash)
  else x

def indexAfter (dag : DerivationDag ρ) (sub : Submission ν) : Map String DrvHash :=
  (sub.nodes.foldl (dag.indexStep sub) (∅, dag.pathToHash)).2

def EdgeKept (dag : DerivationDag ρ) (sub : Submission ν) (parent child : DrvHash) : Prop :=
  dag.Edge parent child ∨ ∃ e ∈ sub.edges,
    (dag.indexAfter sub).lookup e.parentDrvPath = some parent ∧
      (dag.indexAfter sub).lookup e.childDrvPath = some child

end DerivationDag

def DerivationState.standing (s : DerivationState ρ) : DerivationStatus × UInt32 :=
  (s.status, s.resubmitCycles)

theorem DerivationState.mints_of_standing {s s' : DerivationState ρ}
    (h : s.standing = s'.standing) :
    s.mintsEpochOnResubmit explicitRoot = s'.mintsEpochOnResubmit explicitRoot := by
  obtain ⟨hs, hc⟩ := Prod.mk.inj h
  simp [mintsEpochOnResubmit, resubmitDisposition, hs, hc]

namespace Merging

variable {parsers : NodeParsers ν ρ ε} {sub : Submission ν} {node : DerivationNode ν}
variable {m m' : Merging ρ} {dag : DerivationDag ρ}

section Seen

variable {β : Type*} {view : DerivationState ρ → β}

def Seen (view : DerivationState ρ → β) (dag : DerivationDag ρ) (m : Merging ρ) : Prop :=
  ∀ h ∉ m.log.newlyInserted, (m.dag.nodes.lookup h).map view = (dag.nodes.lookup h).map view

theorem Seen.insertFresh {k : Merging ρ} (prior : Option (DerivationState ρ))
    (fresh : DerivationState ρ) (hm : Seen view dag m)
    (hl : k.log.newlyInserted = m.log.newlyInserted)
    (hn : ∀ h ≠ node.drvHash, k.dag.nodes.lookup h = m.dag.nodes.lookup h) :
    Seen view dag (k.insertFresh sub node fresh prior) := by
  obtain ⟨s, hs, -⟩ := exists_insertFresh sub node fresh prior k
  have hi : (k.insertFresh sub node fresh prior).log.newlyInserted =
      insert node.drvHash m.log.newlyInserted := congrArg (insert node.drvHash) hl
  intro h hh
  rw [hi, Finset.mem_insert, not_or] at hh
  rw [hs, Map.lookup_insert_ite, if_neg hh.1, hn h hh.1]
  exact hm h hh.2

section

variable (hview : ∀ node s, view (DerivationState.touch parsers sub node s) = view s)
include hview

theorem Seen.step (hm : Seen view dag m) (hst : NodeStep parsers sub node m r) (hr : r.2 = none) :
    Seen view dag r.1 := by
  cases hst with
  | touch s hs hmi =>
    intro h hh
    rw [touchExisting_eq] at hh ⊢
    rw [Map.lookup_insert_ite, ← hm h hh]
    split_ifs with heq
    · rw [heq, hs, Option.map_some, Option.map_some, hview]
    · rfl
  | refuse => cases hr
  | insert fresh => exact hm.insertFresh none fresh rfl fun _ _ => rfl
  | takeRefuse => cases hr
  | takeInsert old fresh => exact hm.insertFresh (some old) fresh rfl fun h hh => lookup_takeOut hh

theorem seen_mergeNodes {nodes : List (DerivationNode ν)}
    (hmerge : mergeNodes parsers sub nodes { dag } = (m, none)) : Seen view dag m := by
  have hr : ∀ node ∈ nodes, ∀ m r, Seen view dag m →
      NodeStep parsers sub node m r → (r.2 = none → Seen view dag r.1) ∧ True :=
    fun _ _ _ _ hm hs => ⟨hm.step hview hs, trivial⟩
  have hst : Seen view dag { dag } := fun _ _ => rfl
  have hl := mergeNodes_rule (Q := fun _ => True) hr hst
  rw [hmerge] at hl
  exact hl

end

end Seen

structure Follows (dag : DerivationDag ρ) (m : Merging ρ) : Prop where
  inserted : ∀ h ∈ m.log.newlyInserted, m.dag.nodes.lookup h ≠ none
  kept : ∀ h ∉ m.log.newlyInserted, (m.dag.nodes.lookup h).map DerivationState.standing =
    (dag.nodes.lookup h).map DerivationState.standing

theorem Follows.mints (hm : Follows dag m) (hi : node.drvHash ∉ m.log.newlyInserted)
    (hs : m.dag.nodes.lookup node.drvHash = some s) :
    dag.inserts sub node = s.mintsEpochOnResubmit (sub.isRoot node.drvPath) := by
  have hk := hm.kept _ hi
  rw [hs] at hk
  obtain ⟨s', hs', hst⟩ := Option.map_eq_some_iff.mp hk.symm
  rw [inserts, hs', Option.all_some, DerivationState.mints_of_standing hst]

theorem index_insertFresh (sub : Submission ν) (prior : Option (DerivationState ρ))
    (hf : fresh.drvPath = node.drvPath) (m : Merging ρ) :
    ((m.insertFresh sub node fresh prior).log.newlyInserted,
        (m.insertFresh sub node fresh prior).dag.pathToHash) =
      (insert node.drvHash m.log.newlyInserted,
        m.dag.pathToHash.insert node.drvPath node.drvHash) := by
  obtain ⟨s, -, hp, -⟩ := exists_insertFresh sub node fresh prior m
  rw [hp, hf]
  rfl

theorem Follows.insertFresh {k : Merging ρ} (prior : Option (DerivationState ρ))
    (fresh : DerivationState ρ) (hm : Follows dag m)
    (hl : k.log.newlyInserted = m.log.newlyInserted)
    (hn : ∀ h ≠ node.drvHash, k.dag.nodes.lookup h = m.dag.nodes.lookup h) :
    Follows dag (k.insertFresh sub node fresh prior) := by
  refine ⟨fun h hh => ?_, Seen.insertFresh prior fresh hm.kept hl hn⟩
  obtain ⟨s, hs, -⟩ := exists_insertFresh sub node fresh prior k
  rw [hs, Map.lookup_insert_ite]
  split
  · simp
  · rename_i hne
    rw [hn h hne]
    rw [show (k.insertFresh sub node fresh prior).log.newlyInserted =
      insert node.drvHash m.log.newlyInserted from congrArg (insert node.drvHash) hl,
      Finset.mem_insert] at hh
    exact hm.inserted h (hh.resolve_left hne)

theorem Follows.step (hm : Follows dag m) (hst : NodeStep parsers sub node m r) (hr : r.2 = none) :
    Follows dag r.1 ∧ (r.1.log.newlyInserted, r.1.dag.pathToHash) =
      dag.indexStep sub (m.log.newlyInserted, m.dag.pathToHash) node := by
  cases hst with
  | touch s hs hmi =>
    constructor
    · refine ⟨fun h hh => ?_, Seen.step (fun _ _ => rfl) hm.kept (.touch s hs hmi) rfl⟩
      rw [touchExisting_eq] at hh ⊢
      rw [Map.lookup_insert_ite]
      split
      · simp
      · exact hm.inserted h hh
    · have hsk : ¬(node.drvHash ∉ m.log.newlyInserted ∧ dag.inserts sub node) := by
        rintro ⟨hi, hin⟩
        rw [hm.mints hi hs] at hin
        simp [hi, hin] at hmi
      rw [touchExisting_eq, indexStep, if_neg hsk]
  | refuse => cases hr
  | insert fresh hn hf =>
    have hi : node.drvHash ∉ m.log.newlyInserted := fun hi => hm.inserted _ hi hn
    refine ⟨hm.insertFresh none fresh rfl fun _ _ => rfl, ?_⟩
    have hk := hm.kept _ hi
    rw [hn, Option.map_none, eq_comm, Option.map_eq_none_iff] at hk
    rw [indexStep, if_pos ⟨hi, by rw [inserts, hk, Option.all_none]⟩]
    exact index_insertFresh sub none hf m
  | takeRefuse => cases hr
  | takeInsert old fresh hi ho hmi hf =>
    refine ⟨hm.insertFresh (some old) fresh rfl fun h hh => lookup_takeOut hh, ?_⟩
    rw [indexStep, if_pos ⟨hi, by rw [hm.mints hi ho, hmi]⟩]
    exact index_insertFresh sub (some old) hf (m.takeOut node.drvHash old)

theorem Follows.mergeNodes {nodes : List (DerivationNode ν)} (hm : Follows dag m)
    (hmerge : mergeNodes parsers sub nodes m = (m', none)) :
    (m'.log.newlyInserted, m'.dag.pathToHash) =
      nodes.foldl (dag.indexStep sub) (m.log.newlyInserted, m.dag.pathToHash) := by
  induction nodes generalizing m with
  | nil =>
    cases hmerge
    rfl
  | cons node nodes ih =>
    have hs := nodeStep_mergeNode parsers sub node m
    rw [mergeNodes] at hmerge
    cases hr : m.mergeNode parsers sub node with
    | mk next e =>
      rw [hr] at hs hmerge
      cases e with
      | some e => cases hmerge
      | none =>
        obtain ⟨hn, hi⟩ := hm.step hs rfl
        rw [foldl_cons, ← hi]
        exact ih hn hmerge

theorem follows_start : Follows dag { dag } := ⟨by simp, fun _ _ => rfl⟩

theorem pathToHash_mergeNodes (hmerge : mergeNodes parsers sub sub.nodes { dag } = (m, none)) :
    m.dag.pathToHash = dag.indexAfter sub :=
  congrArg Prod.snd (follows_start.mergeNodes hmerge)

end Merging

namespace DerivationDag

open Merging

variable {parsers : NodeParsers ν ρ ε} {order : IterOrder} {sub : Submission ν}
variable {dag dag' : DerivationDag ρ} {log : MergeResult ρ}

section

variable (hmerge : dag.merge parsers order sub = (dag', .ok log))
include hmerge

theorem merge_eq_ok : ∃ m, mergeNodes parsers sub sub.nodes { dag } = (m, none) ∧
    dag' = (m.addEdges sub.edges).dag ∧ log = (m.addEdges sub.edges).log ∧
    dag'.hasCycleFromAny order (dfsStarts order log) ≠ some true := by
  unfold merge at hmerge
  split at hmerge
  · cases hmerge
  · rename_i m hn
    dsimp only at hmerge
    split at hmerge
    · cases hmerge
    all_goals
      rename_i hc
      cases hmerge
      exact ⟨m, hn, rfl, rfl, by rw [hc]; nofun⟩

theorem edge_merge (parent child : DrvHash) :
    dag'.Edge parent child ↔ dag.EdgeKept sub parent child := by
  obtain ⟨m, hn, rfl, -⟩ := merge_eq_ok hmerge
  rw [edge_addEdges, pathToHash_mergeNodes hn, Edge, (frame_mergeNodes hn).children]
  rfl

end

/-- The submitted edges are all there exactly when each was there before or is what some submitted
edge resolves to. -/
theorem submitted_edges_present_iff (hmerge : dag.merge parsers order sub = (dag', .ok log)) :
    (∀ parent child, sub.Edge sub.ids parent child → dag'.Edge parent child) ↔
      ∀ parent child, sub.Edge sub.ids parent child → dag.EdgeKept sub parent child := by
  simp [edge_merge hmerge]

def running : DerivationState Unit :=
  { drvHash := "a", drvPath := "/a", status := .running, drvContent := [], inputSrcs := []
    rest := () }

def oneRunning : DerivationDag Unit :=
  { nodes := Finmap.singleton "a" running, pathToHash := Finmap.singleton "/a" "a" }

def dependsOn (child : String) : Submission Unit where
  buildId := 2
  nodes := [⟨"/r", "r", [], [], ()⟩, ⟨child, "a", [], [], ()⟩]
  edges := [⟨"/r", child⟩]
  traceparent := ""

def isAccepted : Except (DagError ε) (MergeResult ρ) → Bool
  | .ok _ => true
  | .error _ => false

theorem exists_of_isAccepted {r : DerivationDag ρ × Except (DagError ε) (MergeResult ρ)}
    (hr : isAccepted r.2 = true) : ∃ log, r = (r.1, .ok log) :=
  match r, hr with
  | (_, .ok log), _ => ⟨log, rfl⟩

theorem submitted_edges_present_samePath :
    ∃ dag' log, oneRunning.merge anyPath (iterFrom ["a", "r"]) (dependsOn "/a") = (dag', .ok log) ∧
      ∀ parent child, (dependsOn "/a").Edge (dependsOn "/a").ids parent child →
        dag'.Edge parent child := by
  obtain ⟨log, hl⟩ := exists_of_isAccepted
    (r := oneRunning.merge anyPath (iterFrom ["a", "r"]) (dependsOn "/a")) (by decide +kernel)
  refine ⟨_, log, hl, (submitted_edges_present_iff hl).mpr ?_⟩
  rintro parent child ⟨e, he, ⟨p, hp, hpe⟩, c, hc, hce⟩
  obtain rfl := List.mem_singleton.mp he
  have hpa : parent = "r" := by
    obtain rfl | rfl : p = _ ∨ p = _ := by simpa [dependsOn] using hp
    · exact (Prod.mk.inj hpe).1.symm
    · exact absurd (Prod.mk.inj hpe).2 (by decide)
  have hch : child = "a" := by
    obtain rfl | rfl : c = _ ∨ c = _ := by simpa [dependsOn] using hc
    · exact absurd (Prod.mk.inj hce).2 (by decide)
    · exact (Prod.mk.inj hce).1.symm
  rw [hpa, hch]
  exact .inr ⟨_, mem_singleton_self _, by decide +kernel, by decide +kernel⟩

theorem submitted_edge_dropped :
    (∀ p c, p ∈ oneRunning.parents.row c ↔ c ∈ oneRunning.children.row p) ∧
      ∃ dag' log, oneRunning.merge anyPath (iterFrom ["a", "r"]) (dependsOn "/b") =
          (dag', .ok log) ∧
        (dependsOn "/b").Edge (dependsOn "/b").ids "r" "a" ∧ ¬dag'.Edge "r" "a" := by
  refine ⟨by simp [oneRunning, Map.row], ?_⟩
  obtain ⟨log, hl⟩ := exists_of_isAccepted
    (r := oneRunning.merge anyPath (iterFrom ["a", "r"]) (dependsOn "/b")) (by decide +kernel)
  refine ⟨_, log, hl, ?_, ?_⟩
  · exact ⟨_, mem_singleton_self _, ⟨_, mem_cons_self, rfl⟩,
      ⟨_, mem_cons_of_mem _ mem_cons_self, rfl⟩⟩
  · unfold Edge
    decide +kernel

end DerivationDag

end RioBuild.Dag
