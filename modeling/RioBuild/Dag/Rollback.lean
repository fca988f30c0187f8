import RioBuild.Dag.MergeLoop

namespace RioBuild.Dag

open Lib DerivationDag List

variable {ν ρ : Type*}

namespace DerivationDag

def Hydrated (dag : DerivationDag ρ) : Prop :=
  ∀ h s, dag.nodes.lookup h = some s → s.drvContent = [] → s.inputSrcs = []

/-- The DAGs agree, empty sets of edges aside. -/
structure Same (dag dag' : DerivationDag ρ) : Prop where
  nodes : dag.nodes = dag'.nodes
  children : ∀ h, dag.children.row h = dag'.children.row h
  parents : ∀ h, dag.parents.row h = dag'.parents.row h
  pathToHash : dag.pathToHash = dag'.pathToHash
  resubmitFloors : dag.resubmitFloors = dag'.resubmitFloors

end DerivationDag

namespace Merging

variable {m : Merging ρ} {ids : Set (DrvHash × String)} {dag : DerivationDag ρ}
variable {h : DrvHash} {s : DerivationState ρ}

structure Exact (sub : Submission ν) (dag : DerivationDag ρ) (m : Merging ρ) : Prop where
  undone : ∀ h ∉ m.log.newlyInserted, h ∉ restoring m.log →
    (m.dag.nodes.lookup h).map (undoState sub.buildId m.log h) = dag.nodes.lookup h
  filled : ∀ h ∉ m.log.newlyInserted, h ∈ m.log.drvContentBackfilled.map Prod.fst →
    ∀ s, m.dag.nodes.lookup h = some s → s.drvContent ≠ []

theorem filter_key_eq_nil {l : List (DrvHash × γ)} (hh : h ∉ l.map Prod.fst) :
    l.filter (·.1 = h) = [] :=
  filter_eq_nil_iff.mpr fun _ he heq =>
    hh (of_decide_eq_true heq ▸ mem_map_of_mem he)

theorem undo_interest [Decidable added] (builds : Finset Uuid) :
    (if added ∨ b ∉ builds then (insert b builds).erase b else insert b builds) =
      if added then builds.erase b else builds := by
  by_cases hb : b ∈ builds
  · simp [hb]
  · simp [hb]

theorem undo_traceparent [Decidable upgraded] :
    (if upgraded ∨ s.traceparent = "" ∧ traceparent ≠ "" then ""
      else (s.upgradeTraceparent traceparent).1.traceparent) =
      if upgraded then "" else s.traceparent := by
  unfold DerivationState.upgradeTraceparent
  by_cases hu : upgraded
  · simp [hu]
  · by_cases ht : s.traceparent = "" ∧ traceparent ≠ ""
    · simp [ht]
    · simp [ht]

theorem wanted_setContribution_contribute (b : Uuid) (wanted : List String)
    (prior : Option (List String)) :
    (setContribution b prior (s.contribute b wanted).1).wantedByBuild =
      (setContribution b prior s).wantedByBuild := by
  cases prior with
  | some w => exact Finmap.insert_insert _
  | none =>
    refine Finmap.ext_lookup fun b' => ?_
    simp only [setContribution, DerivationState.contribute, Map.lookup_insert_ite,
      Map.lookup_erase_ite]
    split <;> rfl

theorem wanted_setContribution_lookup (b : Uuid) :
    (setContribution b (s.wantedByBuild.lookup b) s).wantedByBuild = s.wantedByBuild := by
  cases hp : s.wantedByBuild.lookup b with
  | some w => exact Map.insert_lookup hp
  | none => exact Map.erase_lookup hp

theorem undoState_congr {log log' : MergeResult ρ}
    (hi : h ∈ log'.interestAdded ↔ h ∈ log.interestAdded)
    (hu : h ∈ log'.traceparentUpgraded ↔ h ∈ log.traceparentUpgraded)
    (hb : log'.drvContentBackfilled.filter (·.1 = h) = log.drvContentBackfilled.filter (·.1 = h))
    (hr : log'.contributionsRecorded.filter (·.1 = h) =
      log.contributionsRecorded.filter (·.1 = h)) : undoState b log' h s = undoState b log h s := by
  simp [undoState, hi, hu, hb, hr]

theorem filter_backfilled_touchExisting (hh : h ≠ node.drvHash) :
    (m.touchExisting parsers sub node s).log.drvContentBackfilled.filter (·.1 = h) =
      m.log.drvContentBackfilled.filter (·.1 = h) := by
  rw [touchExisting_eq]
  cases (s.backfill parsers node.drvContent).2 <;> simp [hh.symm]

theorem undoState_touchExisting_of_ne (hh : h ≠ node.drvHash) :
    undoState sub.buildId (m.touchExisting parsers sub node s).log h s' =
      undoState sub.buildId m.log h s' := by
  refine undoState_congr ?_ ?_ (filter_backfilled_touchExisting hh) ?_
  · simp [mem_interestAdded_touchExisting, hh]
  · simp [mem_traceparentUpgraded_touchExisting, hh]
  · simp [touchExisting_eq, hh.symm]

theorem undo_recorded (recorded : List (DrvHash × Option (List String))) :
    (match (recorded ++ [(k, s.wantedByBuild.lookup b)]).head? with
      | some e => (setContribution b e.2 (s.contribute b wanted).1).wantedByBuild
      | none => (s.contribute b wanted).1.wantedByBuild) = match recorded.head? with
      | some e => (setContribution b e.2 s).wantedByBuild
      | none => s.wantedByBuild := by
  cases recorded with
  | nil =>
    exact (wanted_setContribution_contribute b wanted _).trans (wanted_setContribution_lookup b)
  | cons e recorded => exact wanted_setContribution_contribute b wanted e.2

theorem undoState_touchExisting
    (hfi : node.drvHash ∈ m.log.drvContentBackfilled.map Prod.fst → s.drvContent ≠ [])
    (hh : node.drvHash ∉ m.log.drvContentBackfilled.map Prod.fst →
      s.drvContent = [] → s.inputSrcs = []) :
    undoState sub.buildId (m.touchExisting parsers sub node s).log node.drvHash
        (s.touch parsers sub node) =
      undoState sub.buildId m.log node.drvHash s := by
  have hr : (m.touchExisting parsers sub node s).log.contributionsRecorded.filter
        (·.1 = node.drvHash) = m.log.contributionsRecorded.filter (·.1 = node.drvHash) ++
          [(node.drvHash, s.wantedByBuild.lookup sub.buildId)] := by
    simp [touchExisting_eq]
  have hbf : (m.touchExisting parsers sub node s).log.drvContentBackfilled =
      m.log.drvContentBackfilled ++
        ((s.backfill parsers node.drvContent).2.map (node.drvHash, ·)).toList := by
    rw [touchExisting_eq]
  simp only [undoState, mem_interestAdded_touchExisting, mem_traceparentUpgraded_touchExisting,
    true_and, DerivationState.touch, DerivationState.mk.injEq, and_true, hr]
  obtain hb | ⟨he, _, inputSrcs, hb⟩ :=
    s.backfill_cases parsers node.drvContent
  · simp only [hbf, hb, Option.map_none, Option.toList_none, append_nil]
    exact ⟨undo_interest _, trivial, trivial, trivial, undo_recorded _, undo_traceparent⟩
  · -- a node without content was not filled before
    have hf : node.drvHash ∉ m.log.drvContentBackfilled.map Prod.fst :=
      fun hm => hfi hm he
    simp only [hbf, hb, filter_key_eq_nil hf]
    refine ⟨undo_interest _, ?_, ?_, ?_, undo_recorded _, undo_traceparent⟩
    · simp [he]
    · simp
    · simp [hh hf he]

theorem Exact.start (sub : Submission ν) (dag : DerivationDag ρ) : Exact sub dag { dag } where
  undone h _ _ := by
    cases dag.nodes.lookup h with
    | none => rfl
    | some s => simp [undoState]
  filled _ _ hm := by simp at hm

theorem Exact.takeOut (hm : Exact sub dag m) : Exact sub dag (m.takeOut k old) where
  undone h hh hr := by
    rw [mem_restoring_takeOut, not_or] at hr
    rw [lookup_takeOut hr.2]
    exact hm.undone h hh hr.1
  filled h hh hme s hs := hm.filled h hh hme s (lookup_of_takeOut hs)

theorem Exact.insertFresh (fresh : DerivationState ρ) (prior : Option (DerivationState ρ))
    (hm : Exact sub dag m) : Exact sub dag (m.insertFresh sub node fresh prior) where
  undone h hh hr := by
    obtain ⟨hsa, hh⟩ := lookup_insertFresh_of_notMem hh
    rw [hsa]
    exact hm.undone h hh hr
  filled h hh hme s hs := by
    obtain ⟨hsa, hh⟩ := lookup_insertFresh_of_notMem hh
    exact hm.filled h hh hme s (hsa ▸ hs)

theorem Exact.inputSrcs_eq (hhy : dag.Hydrated) (hm : Exact sub dag m)
    (hh : h ∉ m.log.newlyInserted) (hr : h ∉ restoring m.log) (hs : m.dag.nodes.lookup h = some s)
    (hf : h ∉ m.log.drvContentBackfilled.map Prod.fst) (he : s.drvContent = []) :
    s.inputSrcs = [] := by
  have hu := hm.undone h hh hr
  rw [hs] at hu
  simpa [undoState, filter_key_eq_nil hf, he] using hhy h _ hu.symm

theorem Exact.touchExisting (parsers : NodeParsers ν ρ ε) (hhy : dag.Hydrated)
    (hm : Exact sub dag m) (hs : m.dag.nodes.lookup node.drvHash = some s) :
    Exact sub dag (m.touchExisting parsers sub node s) := by
  refine ⟨fun h hh hr => ?_, fun h hh hme s' hs' => ?_⟩
  · rw [lookup_touchExisting]
    split_ifs with heq
    · subst heq
      rw [Option.map_some, undoState_touchExisting (fun hme => hm.filled _ hh hme s hs)
        (hm.inputSrcs_eq hhy hh hr hs), ← hm.undone _ hh hr, hs, Option.map_some]
    · rw [← hm.undone h hh hr]
      exact Option.map_congr fun s' _ => undoState_touchExisting_of_ne heq
  · rw [lookup_touchExisting] at hs'
    split_ifs at hs' with heq
    · subst heq
      obtain rfl := Option.some.inj hs'
      obtain hb | ⟨_, hne, inputSrcs, hb⟩ := s.backfill_cases parsers node.drvContent
      · simp only [DerivationState.touch, hb]
        refine hm.filled _ hh ?_ s hs
        simpa [touchExisting_eq, hb] using hme
      · simpa [DerivationState.touch, hb] using hne
    · exact hm.filled h hh ((mem_backfilled_touchExisting hme).resolve_right heq) s' hs'

theorem Exact.step (hh : dag.Hydrated) (hm : Exact sub dag m)
    (hst : NodeStep parsers sub node m r) : Exact sub dag r.1 := by
  cases hst with
  | touch s hs hmi => exact hm.touchExisting parsers hh hs
  | refuse source hso => exact hm
  | insert fresh hn hf => exact hm.insertFresh fresh none
  | takeRefuse old hi ho hmi source hso => exact hm.takeOut
  | takeInsert old fresh hi ho hmi hf => exact hm.takeOut.insertFresh fresh (some old)

theorem Exact.addEdge (hm : Exact sub dag m) (e : DerivationEdge) :
    Exact sub dag (m.addEdge e) := by
  unfold Merging.addEdge
  split
  · exact { hm with }
  · exact hm

theorem nodes_rollbackMerge (order : IterOrder) (hm : NodesInv ids sub dag m)
    (hex : Exact sub dag m) : (m.dag.rollbackMerge order sub.buildId m.log).nodes = dag.nodes := by
  refine Finmap.ext_lookup fun h => ?_
  rw [lookup_rollbackMerge hm.unmarked, undoNode]
  cases hl : (m.log.removedRetriable.filter (·.1 = h)).getLast? with
  | some e =>
    obtain ⟨he, rfl⟩ := Map.mem_of_getLast?_filter hl
    exact (hm.removed e he).symm
  | none =>
    have hr := getLast?_eq_none_iff_notMem_restoring.mp hl
    split_ifs with hi
    · exact (Finmap.lookup_eq_none.mpr (hm.added h ⟨hi, hr⟩)).symm
    · exact hex.undone h hi hr

theorem floors_rollbackMerge_eq (order : IterOrder) (hm : NodesInv ids sub dag m) :
    (m.dag.rollbackMerge order sub.buildId m.log).resubmitFloors = dag.resubmitFloors := by
  refine Finmap.ext_lookup fun k => Option.ext fun floor => ?_
  rw [floors_rollbackMerge.1, Map.lookup_foldl_insert Prod.fst Prod.snd, hm.floors]
  cases hl : (m.log.floorsConsumed.filter (·.1 = k)).getLast? with
  | some e =>
    obtain ⟨he, rfl⟩ := Map.mem_of_getLast?_filter hl
    have hfl := (hm.floors e.1 e.2).mpr (.inr he)
    rw [← hm.floors, hfl]
    rfl
  | none =>
    have hf : (k, floor) ∉ m.log.floorsConsumed := fun hme =>
      Map.getLast?_filter_eq_none.mp hl _ hme rfl
    simp [hf]

theorem Reached.same_rollbackMerge (order : IterOrder) (hd : dag.WellFormed)
    (hi : dag.ids ⊆ ids) (hde : Determined ids) (hm : Reached ids sub dag m)
    (he : Exact sub dag m) : (m.dag.rollbackMerge order sub.buildId m.log).Same dag := by
  have hu := hm.undoable hd hi
  have hw : (m.dag.rollbackMerge order sub.buildId m.log).WellFormed :=
    hu.wellFormed_rollbackMerge hde
  have hns := nodes_rollbackMerge order hm.nodes he
  have hch : ∀ p c, c ∈ (m.dag.rollbackMerge order sub.buildId m.log).children.row p ↔
      c ∈ dag.children.row p := by
    intro p c
    rw [mem_children_rollbackMerge, hm.edges.children]
    constructor
    · rintro ⟨hc, hn, _⟩
      exact hc.resolve_right hn
    · intro hc
      refine ⟨.inl hc, fun hn => hm.edges.new p c hn hc, fun ha => ?_⟩
      exact hm.nodes.added p ha (hd.present p c hc).1
  exact {
    nodes := hns
    children := fun p => Finset.ext fun c => hch p c
    parents := fun c => Finset.ext fun p => by rw [hw.inverse, hd.inverse, hch]
    pathToHash := Finmap.ext_lookup fun path => Option.ext fun h => by
      rw [hw.index, hd.index, mem_ids, mem_ids, hns]
    resubmitFloors := floors_rollbackMerge_eq order hm.nodes }

end Merging

namespace DerivationDag

theorem merge_leaves_no_trace (parsers : NodeParsers ν ρ ε) (order : IterOrder)
    (sub : Submission ν) (dag : DerivationDag ρ) (hdag : dag.WellFormed)
    (hhydrated : dag.Hydrated) (hdet : Determined (dag.ids ∪ sub.ids)) :
    match dag.merge parsers order sub with
    | (after, .error _) => after.Same dag
    | (after, .ok log) => ∀ order', (after.rollbackMerge order' sub.buildId log).Same dag := by
  have hi : dag.ids ⊆ dag.ids ∪ sub.ids := Set.subset_union_left
  have he := Merging.ends_merge parsers order hdag hi Set.subset_union_right hdet
    (Merging.Exact.start sub dag) (fun _ _ _ _ _ _ hm hs => hm.step hhydrated hs)
    (fun _ e hm => hm.addEdge e)
  generalize dag.merge parsers order sub = r at he ⊢
  cases he with
  | invalid m node source hnd hso hm | cycle m hn hm hw hcy =>
    exact hm.1.same_rollbackMerge order hdag hi hdet hm.2
  | accepted m hn hm hw hcy =>
    exact fun order' => hm.1.same_rollbackMerge order' hdag hi hdet hm.2

def iterFrom (first : List DrvHash) : IterOrder where
  children _ s := first.filter (· ∈ s) ++ (s \ first.toFinset).sort (· ≤ ·)
  nodes s := first.filter (· ∈ s) ++ (s \ first.toFinset).sort (· ≤ ·)
  mem_children _ s c := by by_cases hc : c ∈ first <;> simp [hc]
  mem_nodes s c := by by_cases hc : c ∈ first <;> simp [hc]

def cancelled : DerivationState Unit :=
  { drvHash := "a", drvPath := "/a", status := .cancelled, drvContent := [], inputSrcs := []
    rest := () }

def oneCancelled : DerivationDag Unit where
  nodes := Finmap.insert "a" cancelled ∅
  pathToHash := Finmap.insert "/a" "a" ∅

def anyPath : NodeParsers Unit Unit Unit where
  parsePath _ := none
  parseInputSrcs _ := none
  restOf _ _ := ()

def twoCycle : Submission Unit where
  buildId := 1
  nodes := [⟨"/a", "a", [], [], ()⟩, ⟨"/b", "b", [], [], ()⟩]
  edges := [⟨"/a", "/b"⟩, ⟨"/b", "/a"⟩]
  traceparent := ""

def isCycleDetected : Except (DagError ε) (MergeResult ρ) → Bool
  | .error .cycleDetected => true
  | .error (.invalidDrvPath _ _) | .ok _ => false

theorem eq_of_isCycleDetected (hr : isCycleDetected r = true) : r = .error .cycleDetected :=
  match r, hr with
  | .error .cycleDetected, _ => rfl

theorem lookup_oneCancelled :
    oneCancelled.nodes.lookup h = if h = "a" then some cancelled else none :=
  Map.lookup_insert_ite

theorem mem_ids_oneCancelled : (h, path) ∈ oneCancelled.ids ↔ h = "a" ∧ path = "/a" := by
  rw [mem_ids, lookup_oneCancelled]
  split <;> simp_all [cancelled, eq_comm]

theorem wellFormed_oneCancelled : oneCancelled.WellFormed where
  inverse p c := by simp [oneCancelled, Map.row]
  present p c hc := by simp [oneCancelled, Map.row] at hc
  index path h := by
    rw [mem_ids_oneCancelled, oneCancelled, Map.lookup_insert_ite]
    split <;> simp_all [eq_comm]

theorem hydrated_oneCancelled : oneCancelled.Hydrated := by
  intro h s hs _
  rw [lookup_oneCancelled] at hs
  split at hs
  · cases hs
    rfl
  · cases hs

theorem determined_pairs : Determined {id | id ∈ [("a", "/a"), ("b", "/b"), ("c", "/c")]} := by
  have hp : ∀ x ∈ [("a", "/a"), ("b", "/b"), ("c", "/c")],
    ∀ y ∈ [("a", "/a"), ("b", "/b"), ("c", "/c")], x.1 = y.1 ↔ x.2 = y.2 := by decide
  exact hp

theorem determined_twoCycle : Determined (oneCancelled.ids ∪ twoCycle.ids) := by
  refine determined_pairs.mono ?_
  rintro ⟨h, path⟩ (hi | ⟨node, hn, hi⟩)
  · obtain ⟨rfl, rfl⟩ := mem_ids_oneCancelled.mp hi
    simp
  · simp only [twoCycle, mem_cons, not_mem_nil, or_false] at hn
    obtain rfl | rfl := hn <;> simp [← hi]

theorem merge_leaves_no_trace_twoCycle :
    ∃ after, oneCancelled.merge anyPath (iterFrom ["a", "b"]) twoCycle =
      (after, .error .cycleDetected) ∧ after.Same oneCancelled := by
  have hcy : (oneCancelled.merge anyPath (iterFrom ["a", "b"]) twoCycle).2 =
      .error .cycleDetected := eq_of_isCycleDetected (by decide +kernel)
  have hs := merge_leaves_no_trace anyPath (iterFrom ["a", "b"]) twoCycle oneCancelled
    wellFormed_oneCancelled hydrated_oneCancelled determined_twoCycle
  generalize oneCancelled.merge anyPath (iterFrom ["a", "b"]) twoCycle = r at hcy hs ⊢
  obtain ⟨after, result⟩ := r
  obtain rfl : result = .error .cycleDetected := hcy
  exact ⟨after, rfl, hs⟩

end DerivationDag

end RioBuild.Dag
