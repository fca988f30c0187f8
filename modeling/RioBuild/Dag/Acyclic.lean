import RioBuild.Dag.MergeLoop

namespace RioBuild.Dag

open Lib Relation List

variable {ν ρ : Type*}

namespace DerivationDag

def Edge (dag : DerivationDag ρ) (p c : DrvHash) : Prop := c ∈ dag.children.row p

def Acyclic (dag : DerivationDag ρ) : Prop := ∀ v, ¬TransGen dag.Edge v v

variable {dag dag' : DerivationDag ρ} {p c : DrvHash}

theorem Acyclic.mono (hd : dag.Acyclic) (hs : ∀ p c, dag'.Edge p c → dag.Edge p c) : dag'.Acyclic :=
  fun v hv => hd v (TransGen.mono hs _ _ hv)

theorem edge_childrenOf : Dfs.Edge (dag.childrenOf order) = dag.Edge := by
  funext p c
  exact propext (order.mem_children p _ c)

theorem mem_vertices_of_edge (hc : dag.Edge p c) : c ∈ dag.vertices starts := by
  refine Finset.mem_union_right _ (Finset.mem_biUnion.mpr ⟨p, ?_, hc⟩)
  refine Finmap.mem_keys.mpr (Finmap.mem_iff.mpr (Option.isSome_iff_exists.mp ?_))
  rw [Edge, Map.row] at hc
  cases hs : dag.children.lookup p with
  | none => simp [hs] at hc
  | some s => rfl

theorem hasCycleFromAny_eq (order : IterOrder) (dag : DerivationDag ρ) (starts : List DrvHash) :
    ∃ found, dag.hasCycleFromAny order starts = some found ∧
      if found then ∃ v, TransGen dag.Edge v v
      else ∀ start ∈ starts, ¬TransGen dag.Edge start start := by
  have hV : ∀ v ∈ dag.vertices starts, ∀ c ∈ dag.childrenOf order v, c ∈ dag.vertices starts :=
    fun v _ c hc => mem_vertices_of_edge ((order.mem_children v _ c).mp hc)
  have hst : ∀ start ∈ starts, start ∈ dag.vertices starts :=
    fun start hs => Finset.mem_union_left _ (mem_toFinset.mpr hs)
  obtain ⟨found, hf⟩ := Option.isSome_iff_exists.mp (Dfs.isSome_searchAll hV hst)
  refine ⟨found, hf, ?_⟩
  have hw : Dfs.Settled (dag.childrenOf order) fun _ => .white := ⟨by simp, by simp⟩
  have heq := Dfs.searchAll_eq hw hf
  rw [edge_childrenOf] at heq
  cases found with
  | true => exact heq
  | false =>
    intro start hs
    have hg := (heq start hs).not_cycle
    rwa [edge_childrenOf] at hg

end DerivationDag

namespace Merging

open DerivationDag

variable {dag : DerivationDag ρ} {m : Merging ρ}
variable {p c : DrvHash}

theorem mem_dfsStarts (hn : (p, c) ∈ m.log.newEdges) : p ∈ dfsStarts order m.log := by
  by_cases hi : p ∈ m.log.newlyInserted
  · exact mem_append_left _ ((order.mem_nodes _ _).mpr hi)
  · refine mem_append_right _ (mem_filter.mpr ⟨mem_map_of_mem hn, ?_⟩)
    simpa using hi

theorem Linked.hasCycleFromAny_iff (order : IterOrder) (ha : dag.Acyclic) (hm : Linked dag m) :
    m.dag.hasCycleFromAny order (dfsStarts order m.log) = some true ↔
      ∃ v, TransGen m.dag.Edge v v := by
  obtain ⟨found, hf, heq⟩ := hasCycleFromAny_eq order m.dag (dfsStarts order m.log)
  rw [hf]
  cases found with
  | true => exact ⟨fun _ => heq, fun _ => rfl⟩
  | false =>
    refine ⟨nofun, fun ⟨v, hv⟩ => ?_⟩
    obtain ⟨p, c, hp, hn, hc⟩ := exists_added_of_cycle (ha v) hv
    have hn := ((hm.children p c).mp hp).resolve_left hn
    exact absurd hc (heq p (mem_dfsStarts hn))

theorem addEdge_frame (e : DerivationEdge) :
    (m.addEdge e).dag.nodes = m.dag.nodes ∧ (m.addEdge e).dag.pathToHash = m.dag.pathToHash := by
  refine ⟨addEdge_nodes e, ?_⟩
  unfold addEdge
  split <;> rfl

theorem edge_addEdge : (m.addEdge e).dag.Edge p c ↔ m.dag.Edge p c ∨
    m.dag.pathToHash.lookup e.parentDrvPath = some p ∧
      m.dag.pathToHash.lookup e.childDrvPath = some c := by
  unfold addEdge
  split
  · rename_i parent child hpa hch
    rw [Edge, Map.mem_row_addTo, hpa, hch, or_comm, Option.some.injEq, Option.some.injEq,
      eq_comm, eq_comm (a := c)]
    rfl
  · rename_i hn
    exact (or_iff_left fun ⟨hp, hc⟩ => hn p c hp hc).symm

theorem edge_addEdges : (m.addEdges edges).dag.Edge p c ↔ m.dag.Edge p c ∨ ∃ e ∈ edges,
    m.dag.pathToHash.lookup e.parentDrvPath = some p ∧
      m.dag.pathToHash.lookup e.childDrvPath = some c := by
  induction edges generalizing m with
  | nil => simp [addEdges]
  | cons e edges ih =>
    have hc : m.addEdges (e :: edges) = (m.addEdge e).addEdges edges := rfl
    rw [hc, ih, edge_addEdge, (addEdge_frame e).2, exists_mem_cons_iff, or_assoc]

theorem addEdges_frame (edges : List DerivationEdge) : (m.addEdges edges).dag.nodes = m.dag.nodes ∧
    (m.addEdges edges).dag.pathToHash = m.dag.pathToHash := by
  induction edges generalizing m with
  | nil => exact ⟨rfl, rfl⟩
  | cons e edges ih =>
    exact ⟨ih.1.trans (addEdge_frame e).1, ih.2.trans (addEdge_frame e).2⟩

theorem NodeStep.mem_nodes (hst : NodeStep parsers sub node m (m', none)) :
    node.drvHash ∈ m'.dag.nodes ∧ ∀ h ∈ m.dag.nodes, h ∈ m'.dag.nodes := by
  have hin s (nodes : Map DrvHash (DerivationState ρ))
      (hsu : ∀ h ∈ m.dag.nodes, h = node.drvHash ∨ h ∈ nodes)
      (heq : m'.dag.nodes = nodes.insert node.drvHash s) :
      node.drvHash ∈ m'.dag.nodes ∧ ∀ h ∈ m.dag.nodes, h ∈ m'.dag.nodes := by
    rw [heq]
    refine ⟨Finmap.mem_insert.mpr (.inl rfl), fun h hh => Finmap.mem_insert.mpr (hsu h hh)⟩
  cases hst with
  | touch s hs hm =>
    exact hin _ m.dag.nodes (fun _ hh => .inr hh) (by rw [touchExisting_eq])
  | insert fresh hn hf =>
    obtain ⟨s, heq, _⟩ := exists_insertFresh sub node fresh none m
    exact hin s m.dag.nodes (fun _ hh => .inr hh) heq
  | takeInsert old fresh hi ho hm hf =>
    obtain ⟨s, heq, _⟩ :=
      exists_insertFresh sub node fresh (some old) (m.takeOut node.drvHash old)
    refine hin s _ (fun h hh => ?_) heq
    by_cases hne : h = node.drvHash
    · exact .inl hne
    · exact .inr (Finmap.mem_erase.mpr ⟨hne, hh⟩)

variable {nodes : List (DerivationNode ν)}

theorem mem_nodes_mergeNodes (hn : mergeNodes parsers sub nodes m = (m', none)) :
    (∀ node ∈ nodes, node.drvHash ∈ m'.dag.nodes) ∧ ∀ h ∈ m.dag.nodes, h ∈ m'.dag.nodes := by
  induction nodes generalizing m with
  | nil =>
    obtain rfl : m = m' := congrArg Prod.fst hn
    exact ⟨by simp, fun _ => id⟩
  | cons node nodes ih =>
    have hs := nodeStep_mergeNode parsers sub node m
    unfold mergeNodes at hn
    cases hr : m.mergeNode parsers sub node with
    | mk m1 e =>
      rw [hr] at hs hn
      cases e with
      | some e => cases hn
      | none =>
        obtain ⟨hre, hk⟩ := ih hn
        obtain ⟨hnd, hk1⟩ := hs.mem_nodes
        exact ⟨forall_mem_cons.mpr ⟨hk _ hnd, hre⟩, fun h hh => hk h (hk1 h hh)⟩

theorem frame_mergeNodes (hn : mergeNodes parsers sub nodes { dag } = (m, none)) : Frame dag m := by
  have hs : ∀ node ∈ nodes, ∀ m r, Frame dag m →
      NodeStep parsers sub node m r → (r.2 = none → Frame dag r.1) ∧ Frame dag r.1 :=
    fun _ _ _ _ hm ho => ⟨fun _ => hm.step ho, hm.step ho⟩
  have hl := mergeNodes_rule hs (m := { dag }) ⟨rfl, rfl, rfl⟩
  rw [hn] at hl
  exact hl

theorem lookup_path_of_merged (edges : List DerivationEdge)
    (hn : mergeNodes parsers sub sub.nodes { dag } = (m, none))
    (hm : NodesInv (dag.ids ∪ sub.ids) sub dag (m.addEdges edges)) :
    m.dag.pathToHash.lookup path = some h ↔ (h, path) ∈ dag.ids ∪ sub.ids := by
  rw [← (addEdges_frame edges).2, hm.index, (addEdges_frame edges).1]
  refine and_iff_left_of_imp fun hme => .inl ?_
  obtain ⟨hs, ho⟩ := mem_nodes_mergeNodes hn
  obtain hme | ⟨node, hnd, hme⟩ := hme
  · exact ho h (mem_nodes_iff.mpr ⟨path, hme⟩)
  · cases hme
    exact hs node hnd

end Merging

def Submission.Edge (sub : Submission ν) (ids : Set (DrvHash × String)) (p c : DrvHash) : Prop :=
  ∃ e ∈ sub.edges, (p, e.parentDrvPath) ∈ ids ∧ (c, e.childDrvPath) ∈ ids

namespace DerivationDag

variable {parsers : NodeParsers ν ρ ε} {sub : Submission ν} {dag : DerivationDag ρ}

open Merging

def MergedEdge (dag : DerivationDag ρ) (sub : Submission ν) (p c : DrvHash) : Prop :=
  dag.Edge p c ∨ sub.Edge (dag.ids ∪ sub.ids) p c

theorem edge_of_merged (hn : mergeNodes parsers sub sub.nodes { dag } = (m, none))
    (hm : NodesInv (dag.ids ∪ sub.ids) sub dag (m.addEdges sub.edges)) :
    (m.addEdges sub.edges).dag.Edge = dag.MergedEdge sub := by
  funext p c
  rw [edge_addEdges, Edge, (frame_mergeNodes hn).children]
  simp only [lookup_path_of_merged sub.edges hn hm]
  rfl

theorem merge_cycleDetected_iff (order : IterOrder) (hd : dag.WellFormed)
    (ha : dag.Acyclic) (hde : Determined (dag.ids ∪ sub.ids))
    (hva : ∀ node ∈ sub.nodes, parsers.parsePath node.drvPath = none) :
    (dag.merge parsers order sub).2 = .error .cycleDetected ↔
      ∃ v, TransGen (dag.MergedEdge sub) v v := by
  have he :=
    ends_merge_reached parsers order hd Set.subset_union_left Set.subset_union_right hde
  generalize dag.merge parsers order sub = r at he
  cases he with
  | invalid m node source hnd hs hm => simp [hva node hnd] at hs
  | cycle m hn hm hw hc =>
    rw [hm.edges.linked.hasCycleFromAny_iff order ha, edge_of_merged hn hm.nodes] at hc
    exact ⟨fun _ => hc, fun _ => rfl⟩
  | accepted m hn hm hw hc =>
    rw [ne_eq, hm.edges.linked.hasCycleFromAny_iff order ha, edge_of_merged hn hm.nodes] at hc
    exact ⟨nofun, fun hv => absurd hv hc⟩

section

variable {order : IterOrder} {h p c : DrvHash}

section

variable (hinverse : ∀ p c, p ∈ dag.parents.row c ↔ c ∈ dag.children.row p)
include hinverse

theorem mem_children_removeNode :
    c ∈ (dag.removeNode order h).children.row p ↔ c ∈ dag.children.row p ∧ p ≠ h ∧ c ≠ h := by
  simp only [removeNode, Map.mem_row_foldl_modify_erase, Map.row_erase, order.mem_nodes]
  by_cases hp : p = h
  · simp [hp]
  · by_cases hc : c = h
    · subst hc
      simp only [hp, hinverse]
      tauto
    · simp [hp, hc]

theorem mem_parents_removeNode :
    p ∈ (dag.removeNode order h).parents.row c ↔ p ∈ dag.parents.row c ∧ p ≠ h ∧ c ≠ h := by
  simp only [removeNode, Map.row_erase]
  by_cases hc : c = h
  · simp [hc]
  · simp only [hc, if_false, Map.mem_row_foldl_modify_erase, order.mem_nodes, hinverse]
    by_cases hp : p = h
    · subst hp
      tauto
    · simp [hp, hc]

end

theorem mem_ids_removeNode :
    (h', path) ∈ (dag.removeNode order h).ids ↔ (h', path) ∈ dag.ids ∧ h' ≠ h := by
  rw [mem_ids, mem_ids]
  simp only [removeNode, Map.lookup_erase_ite]
  by_cases hh : h' = h
  all_goals simp [hh]

theorem path_removeNode (hd : dag.WellFormed) :
    (dag.removeNode order h).pathToHash.lookup path = some h' ↔
      dag.pathToHash.lookup path = some h' ∧ h' ≠ h := by
  unfold removeNode
  cases hs : dag.nodes.lookup h with
  | none =>
    refine (and_iff_left_of_imp fun hp => ?_).symm
    rintro rfl
    obtain ⟨s, hs', _⟩ := mem_ids.mp ((hd.index path h').mp hp)
    simp [hs] at hs'
  | some s =>
    have hp : dag.pathToHash.lookup s.drvPath = some h :=
      (hd.index s.drvPath h).mpr (mem_ids.mpr ⟨s, hs, rfl⟩)
    rw [Map.lookup_erase_ite]
    split
    · rename_i heq
      rw [heq, hp]
      simp [eq_comm]
    · rename_i hne
      refine (and_iff_left_of_imp fun hl => ?_).symm
      rintro rfl
      obtain ⟨s', hs', heq⟩ := mem_ids.mp ((hd.index path h').mp hl)
      obtain rfl := Option.some.inj (hs.symm.trans hs')
      exact hne heq.symm

theorem WellFormed.removeNode (order : IterOrder) (hd : dag.WellFormed) (h : DrvHash) :
    (dag.removeNode order h).WellFormed where
  inverse p c := by
    rw [mem_parents_removeNode hd.inverse, mem_children_removeNode hd.inverse, hd.inverse]
  present p c hc := by
    obtain ⟨hc, hp, hch⟩ := (mem_children_removeNode hd.inverse).mp hc
    obtain ⟨hpn, hcn⟩ := hd.present p c hc
    exact ⟨Finmap.mem_erase.mpr ⟨hp, hpn⟩, Finmap.mem_erase.mpr ⟨hch, hcn⟩⟩
  index path h' := by rw [path_removeNode hd, mem_ids_removeNode, hd.index]

theorem ids_modifyNode (hf : ∀ s, (f s).drvPath = s.drvPath) :
    (dag.modifyNode h f).ids = dag.ids := by
  ext ⟨h', path⟩
  change (Finmap.lookup h' (Map.modify h f dag.nodes)).map _ = _ ↔ _
  rw [Map.lookup_modify]
  split
  · rw [Option.map_map, Function.comp_def]
    simp only [hf]
    rfl
  · rfl

theorem WellFormed.modifyNode (hd : dag.WellFormed) (hf : ∀ s, (f s).drvPath = s.drvPath)
    (h : DrvHash) : (dag.modifyNode h f).WellFormed where
  inverse := hd.inverse
  present p c hc := by
    simp only [mem_nodes_iff, ids_modifyNode hf]
    simpa [mem_nodes_iff] using hd.present p c hc
  index path h' := by
    rw [ids_modifyNode hf]
    exact hd.index path h'

theorem reap_rule {P : DerivationDag ρ → Prop}
    (hl : ∀ dag h, P dag → P (dag.modifyNode h (loseInterest buildId)))
    (hre : ∀ dag h, P dag → P (dag.removeNode order h)) (hd : P dag) :
    P (dag.removeBuildInterestAndReap order buildId).1 := by
  refine foldlRecOn (motive := fun r : DerivationDag ρ × Finset DrvHash => P r.1) _ _ ?_ ?_
  · exact foldlRecOn _ _ hd fun dag hd h _ => hl dag h hd
  · exact fun r hr e _ => hre r.1 e.1 hr

end

end DerivationDag

end RioBuild.Dag
