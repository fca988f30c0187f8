import RioBuild.Dag.MergeNodes

namespace RioBuild.Dag

open Lib DerivationDag

variable {ν ρ ε : Type*}

namespace Merging

variable {m : Merging ρ} {ids : Set (DrvHash × String)} {dag : DerivationDag ρ}

structure EdgesInv (dag : DerivationDag ρ) (m : Merging ρ) : Prop where
  children : ∀ p c, c ∈ m.dag.children.row p ↔ c ∈ dag.children.row p ∨ (p, c) ∈ m.log.newEdges
  parents : ∀ p c, p ∈ m.dag.parents.row c ↔ p ∈ dag.parents.row c ∨ (p, c) ∈ m.log.newEdges
  new : ∀ p c, (p, c) ∈ m.log.newEdges → c ∉ dag.children.row p
  present : ∀ p c, (p, c) ∈ m.log.newEdges → p ∈ m.dag.nodes ∧ c ∈ m.dag.nodes

structure Linked (dag : DerivationDag ρ) (m : Merging ρ) : Prop where
  children : ∀ p c, c ∈ m.dag.children.row p ↔ c ∈ dag.children.row p ∨ (p, c) ∈ m.log.newEdges
  parents : ∀ p c, p ∈ m.dag.parents.row c ↔ p ∈ dag.parents.row c ∨ (p, c) ∈ m.log.newEdges

theorem EdgesInv.linked (hm : EdgesInv dag m) : Linked dag m := ⟨hm.children, hm.parents⟩

structure Frame (dag : DerivationDag ρ) (m : Merging ρ) : Prop where
  children : m.dag.children = dag.children
  parents : m.dag.parents = dag.parents
  newEdges : m.log.newEdges = []

theorem Frame.step (hm : Frame dag m) (hst : NodeStep parsers sub node m r) : Frame dag r.1 := by
  cases hst with
  | touch s hs hmi | insert fresh hn hf => exact ⟨hm.children, hm.parents, hm.newEdges⟩
  | refuse source hsource => exact hm
  | takeRefuse old hi ho hmi source hsource | takeInsert old fresh hi ho hmi hf =>
    exact ⟨hm.children, hm.parents, hm.newEdges⟩

theorem Frame.edgesInv (hm : Frame dag m) : EdgesInv dag m where
  children p c := by simp [hm.children, hm.newEdges]
  parents p c := by simp [hm.parents, hm.newEdges]
  new p c := by simp [hm.newEdges]
  present p c := by simp [hm.newEdges]

theorem addEdge_nodes (e : DerivationEdge) : (m.addEdge e).dag.nodes = m.dag.nodes := by
  unfold addEdge
  split <;> rfl

theorem NodesInv.addEdge (hm : NodesInv ids sub dag m) (e : DerivationEdge) :
    NodesInv ids sub dag (m.addEdge e) := by
  unfold Merging.addEdge
  split
  · exact { hm with }
  · exact hm

theorem mem_newEdges_addEdge :
    (p, c) ∈ l ++ [(parent, child)] ↔ (p, c) ∈ l ∨ p = parent ∧ c = child := by
  simp

theorem Linked.addEdge (hd : ∀ p c, p ∈ dag.parents.row c ↔ c ∈ dag.children.row p)
    (hm : Linked dag m) (e : DerivationEdge) : Linked dag (m.addEdge e) := by
  unfold Merging.addEdge
  split
  · rename_i parent child hpar hch
    by_cases hk : child ∈ m.dag.children.row parent
    · -- an edge that exists changes nothing
      have hpa : parent ∈ m.dag.parents.row child := by
        rw [hm.parents, hd, ← hm.children]
        exact hk
      simp only [if_pos hk, List.append_nil]
      refine ⟨fun p c => ?_, fun p c => ?_⟩
      · rw [Map.mem_row_addTo, ← hm.children]
        exact or_iff_right_of_imp fun ⟨hp, hc⟩ => hp ▸ hc ▸ hk
      · rw [Map.mem_row_addTo, ← hm.parents]
        exact or_iff_right_of_imp fun ⟨hc, hp⟩ => hp ▸ hc ▸ hpa
    · simp only [if_neg hk]
      refine ⟨fun p c => ?_, fun p c => ?_⟩
      · rw [Map.mem_row_addTo, hm.children, mem_newEdges_addEdge]
        tauto
      · rw [Map.mem_row_addTo, hm.parents, mem_newEdges_addEdge]
        tauto
  · exact hm

theorem EdgesInv.addEdge (hd : dag.WellFormed) (hm : EdgesInv dag m)
    (hi : ∀ path h, m.dag.pathToHash.lookup path = some h → h ∈ m.dag.nodes)
    (e : DerivationEdge) : EdgesInv dag (m.addEdge e) := by
  obtain ⟨hch, hpa⟩ := hm.linked.addEdge hd.inverse e
  suffices hl : ∀ p c, (p, c) ∈ (m.addEdge e).log.newEdges →
      c ∉ dag.children.row p ∧ p ∈ m.dag.nodes ∧ c ∈ m.dag.nodes by
    refine ⟨hch, hpa, fun p c hp => (hl p c hp).1, fun p c hp => ?_⟩
    rw [addEdge_nodes]
    exact (hl p c hp).2
  intro p c hp
  unfold Merging.addEdge at hp
  split at hp
  · rename_i parent child hpar hchi
    by_cases hk : child ∈ m.dag.children.row parent
    · simp only [if_pos hk, List.append_nil] at hp
      exact ⟨hm.new p c hp, hm.present p c hp⟩
    · simp only [if_neg hk] at hp
      obtain hp | ⟨rfl, rfl⟩ := mem_newEdges_addEdge.mp hp
      · exact ⟨hm.new p c hp, hm.present p c hp⟩
      · exact ⟨fun hc => hk ((hm.children p c).mpr (.inl hc)), hi _ _ hpar, hi _ _ hchi⟩
  · exact ⟨hm.new p c hp, hm.present p c hp⟩

structure Reached (ids : Set (DrvHash × String)) (sub : Submission ν) (dag : DerivationDag ρ)
    (m : Merging ρ) : Prop where
  nodes : NodesInv ids sub dag m
  edges : EdgesInv dag m

theorem Reached.addEdge (hd : dag.WellFormed) (hm : Reached ids sub dag m) (hwhole : m.Whole)
    (e : DerivationEdge) : Reached ids sub dag (m.addEdge e) ∧ (m.addEdge e).Whole := by
  have hi : ∀ path h, m.dag.pathToHash.lookup path = some h → h ∈ m.dag.nodes :=
    fun path h hh => hm.nodes.mem_of_whole hwhole ((hm.nodes.index path h).mp hh).2
  refine ⟨⟨hm.nodes.addEdge e, hm.edges.addEdge hd hi e⟩, ?_⟩
  unfold Merging.addEdge
  split
  all_goals exact hwhole

theorem Reached.undoable (hd : dag.WellFormed) (hi : dag.ids ⊆ ids)
    (hm : Reached ids sub dag m) : Undoable ids m.log m.dag where
  unmarked := hm.nodes.unmarked
  removed_ids e he := hi (mem_ids.mpr ⟨e.2, hm.nodes.removed e he, rfl⟩)
  node_ids := hm.nodes.node_ids
  indexed path h hme := (hm.nodes.index path h).mpr
    ⟨hm.nodes.node_ids hme, .inl (mem_nodes_iff.mpr ⟨path, hme⟩)⟩
  index path h hh := (hm.nodes.index path h).mp hh
  inverse p c := by rw [hm.edges.parents, hm.edges.children, hd.inverse]
  present p c hc := by
    obtain hc | hc := (hm.edges.children p c).mp hc
    · obtain ⟨hp, hc⟩ := hd.present p c hc
      exact ⟨hm.nodes.mem_or_restoring hp, hm.nodes.mem_or_restoring hc⟩
    · obtain ⟨hp, hc⟩ := hm.edges.present p c hc
      exact ⟨.inl hp, .inl hc⟩
  added p c hc hn := by
    have hc := ((hm.edges.children p c).mp hc).resolve_right hn
    obtain ⟨hp, hc⟩ := hd.present p c hc
    exact ⟨fun ha => hm.nodes.added p ha hp, fun ha => hm.nodes.added c ha hc⟩

theorem Reached.wellFormed (hde : Determined ids) (hd : dag.WellFormed) (hi : dag.ids ⊆ ids)
    (hm : Reached ids sub dag m) (hwhole : m.Whole) : m.dag.WellFormed where
  inverse := (hm.undoable hd hi).inverse
  present p c hc :=
    ((hm.undoable hd hi).present p c hc).imp (hm.nodes.mem_of_whole hwhole)
      (hm.nodes.mem_of_whole hwhole)
  index path h := by
    rw [hm.nodes.index]
    constructor
    · rintro ⟨hme, hnode⟩
      exact mem_ids_of_mem_nodes hde hm.nodes.node_ids hme (hm.nodes.mem_of_whole hwhole hnode)
    · exact fun hme => ⟨hm.nodes.node_ids hme, .inl (mem_nodes_iff.mpr ⟨path, hme⟩)⟩

inductive Ends (parsers : NodeParsers ν ρ ε) (order : IterOrder) (sub : Submission ν)
    (dag : DerivationDag ρ) (R : Merging ρ → Prop) :
    DerivationDag ρ × Except (DagError ε) (MergeResult ρ) → Prop
  | invalid (m : Merging ρ) (node : DerivationNode ν) (source : ε) (hnode : node ∈ sub.nodes)
      (hsource : parsers.parsePath node.drvPath = some source) (hm : R m) :
      Ends parsers order sub dag R (m.dag.rollbackMerge order sub.buildId m.log,
        .error (.invalidDrvPath node.drvPath source))
  | cycle (m : Merging ρ) (hnodes : mergeNodes parsers sub sub.nodes { dag } = (m, none))
      (hm : R (m.addEdges sub.edges)) (hwhole : (m.addEdges sub.edges).Whole)
      (hcycle : (m.addEdges sub.edges).dag.hasCycleFromAny order
        (dfsStarts order (m.addEdges sub.edges).log) = some true) :
      Ends parsers order sub dag R
        ((m.addEdges sub.edges).dag.rollbackMerge order sub.buildId (m.addEdges sub.edges).log,
          .error .cycleDetected)
  | accepted (m : Merging ρ) (hnodes : mergeNodes parsers sub sub.nodes { dag } = (m, none))
      (hm : R (m.addEdges sub.edges)) (hwhole : (m.addEdges sub.edges).Whole)
      (hcycle : (m.addEdges sub.edges).dag.hasCycleFromAny order
        (dfsStarts order (m.addEdges sub.edges).log) ≠ some true) :
      Ends parsers order sub dag R
        ((m.addEdges sub.edges).dag, .ok (m.addEdges sub.edges).log)

theorem addEdges_rule {P : Merging ρ → Prop} (hs : ∀ m e, P m → P (m.addEdge e)) (hm : P m)
    (edges : List DerivationEdge) : P (m.addEdges edges) := by
  induction edges generalizing m with
  | nil => exact hm
  | cons e edges ih => exact ih (hs m e hm)

theorem ends_merge {R : Merging ρ → Prop} (parsers : NodeParsers ν ρ ε) (order : IterOrder)
    (hd : dag.WellFormed) (hid : dag.ids ⊆ ids) (hs : sub.ids ⊆ ids)
    (hde : Determined ids) (hst : R { dag })
    (hste : ∀ node ∈ sub.nodes, ∀ m r, NodesInv ids sub dag m → m.Whole → R m →
      NodeStep parsers sub node m r → R r.1)
    (hed : ∀ m e, R m → R (m.addEdge e)) :
    Ends parsers order sub dag (fun m => Reached ids sub dag m ∧ R m)
      (dag.merge parsers order sub) := by
  let P m : Prop := NodesInv ids sub dag m ∧ Frame dag m ∧ R m
  have hnodes : ∀ node ∈ sub.nodes, ∀ m r, P m ∧ m.Whole →
      NodeStep parsers sub node m r → (r.2 = none → P r.1 ∧ r.1.Whole) ∧ P r.1 := by
    rintro node hnode m r ⟨⟨hi, hf, hr⟩, hwhole⟩ ho
    obtain ⟨hi', hwhole'⟩ := hi.step hde (hs ⟨node, hnode, rfl⟩) hwhole ho
    have hP : P r.1 := ⟨hi', hf.step ho, hste node hnode m r hi hwhole hr ho⟩
    exact ⟨fun he => ⟨hP, hwhole' he⟩, hP⟩
  have hb : P { dag } ∧ Whole { dag } :=
    ⟨⟨.start hd hid hde, ⟨rfl, rfl, rfl⟩, hst⟩, fun _ hr => by simp [restoring] at hr⟩
  have hl := mergeNodes_rule hnodes hb
  unfold merge
  cases hme : mergeNodes parsers sub sub.nodes { dag } with
  | mk m e =>
    rw [hme] at hl
    cases e with
    | some e =>
      obtain ⟨⟨hi, hf, hr⟩, node, hnode, source, hsource, rfl⟩ := hl
      exact .invalid m node source hnode hsource ⟨⟨hi, hf.edgesInv⟩, hr⟩
    | none =>
      obtain ⟨⟨hi, hf, hr⟩, hwhole⟩ := hl
      obtain ⟨⟨hre, hr⟩, hwhole⟩ := addEdges_rule
        (P := fun m => (Reached ids sub dag m ∧ R m) ∧ m.Whole)
        (fun m e hm => ⟨⟨(hm.1.1.addEdge hd hm.2 e).1, hed m e hm.1.2⟩,
          (hm.1.1.addEdge hd hm.2 e).2⟩)
        ⟨⟨⟨hi, hf.edgesInv⟩, hr⟩, hwhole⟩ sub.edges
      dsimp only
      split
      · rename_i hcycle
        exact .cycle m hme ⟨hre, hr⟩ hwhole hcycle
      all_goals
        rename_i hcycle
        exact .accepted m hme ⟨hre, hr⟩ hwhole (by simp [hcycle])

theorem ends_merge_reached (parsers : NodeParsers ν ρ ε) (order : IterOrder)
    (hd : dag.WellFormed) (hi : dag.ids ⊆ ids) (hs : sub.ids ⊆ ids) (hde : Determined ids) :
    Ends parsers order sub dag (Reached ids sub dag) (dag.merge parsers order sub) := by
  have he := ends_merge parsers order hd hi hs hde (R := fun _ => True) trivial
    (fun _ _ _ _ _ _ _ _ => trivial) (fun _ _ _ => trivial)
  simpa using he

end Merging

end RioBuild.Dag
