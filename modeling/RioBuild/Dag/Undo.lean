import RioBuild.Dag.Model

namespace RioBuild.Dag

open Lib List Map

variable {ρ : Type*}

namespace DerivationDag

variable {dag : DerivationDag ρ} {log : MergeResult ρ} {order : IterOrder} {buildId : Uuid}
variable {h p : DrvHash}

def undoState (buildId : Uuid) (log : MergeResult ρ) (h : DrvHash) (s : DerivationState ρ) :
    DerivationState ρ :=
  let backfilled := (log.drvContentBackfilled.filter (·.1 = h)).getLast?
  { s with
    interestedBuilds :=
      if h ∈ log.interestAdded then s.interestedBuilds.erase buildId else s.interestedBuilds
    traceparent := if h ∈ log.traceparentUpgraded then "" else s.traceparent
    drvContent := if backfilled.isSome then [] else s.drvContent
    inputSrcs := if backfilled.isSome then [] else s.inputSrcs
    drvFetchAttempted := (backfilled.map Prod.snd).getD s.drvFetchAttempted
    wantedByBuild := match (log.contributionsRecorded.filter (·.1 = h)).head? with
      | some e => (setContribution buildId e.2 s).wantedByBuild
      | none => s.wantedByBuild }

def undoNode (buildId : Uuid) (log : MergeResult ρ) (h : DrvHash)
    (v : Option (DerivationState ρ)) : Option (DerivationState ρ) :=
  match (log.removedRetriable.filter (·.1 = h)).getLast? with
  | some e => some e.2
  | none => if h ∈ log.newlyInserted then none else v.map (undoState buildId log h)

theorem foldl_modifyNode (key : γ → DrvHash) (f : γ → DerivationState ρ → DerivationState ρ)
    (l : List γ) : l.foldl (fun dag x => dag.modifyNode (key x) (f x)) dag =
      { dag with nodes := l.foldl (fun nodes x => nodes.modify (key x) (f x)) dag.nodes } := by
  induction l generalizing dag with
  | nil => rfl
  | cons x l ih => rw [foldl_cons, ih, foldl_cons, modifyNode]

theorem foldl_dropEdge (l : List (DrvHash × DrvHash)) : l.foldl dropEdge dag =
    { dag with
      children := l.foldl (fun m e => m.dropFrom e.1 e.2) dag.children
      parents := l.foldl (fun m e => m.dropFrom e.2 e.1) dag.parents } := by
  induction l generalizing dag with
  | nil => rfl
  | cons x l ih => rw [foldl_cons, ih, foldl_cons, foldl_cons, dropEdge]

theorem foldl_restore (l : List (DrvHash × DerivationState ρ)) : l.foldl restore dag =
    { dag with
      nodes := l.foldl (fun m e => m.insert e.1 e.2) dag.nodes
      pathToHash := l.foldl (fun m e => m.insert e.2.drvPath e.1) dag.pathToHash } := by
  induction l generalizing dag with
  | nil => rfl
  | cons x l ih => rw [foldl_cons, ih, foldl_cons, foldl_cons, restore]

theorem nodes_foldl_dropInserted (l : List DrvHash) :
    (l.foldl (dropInserted log) dag).nodes = l.foldl (fun m h => m.erase h) dag.nodes := by
  induction l generalizing dag with
  | nil => rfl
  | cons x l ih => rw [foldl_cons, ih, foldl_cons, dropInserted]

theorem floors_foldl_dropInserted (l : List DrvHash) :
    (l.foldl (dropInserted log) dag).resubmitFloors = dag.resubmitFloors ∧
      (l.foldl (dropInserted log) dag).softFeatures = dag.softFeatures := by
  induction l generalizing dag with
  | nil => exact ⟨rfl, rfl⟩
  | cons x l ih => exact ih

theorem path_foldl_dropInserted {l : List DrvHash} :
    (l.foldl (dropInserted log) dag).pathToHash.lookup path = some h ↔
      dag.pathToHash.lookup path = some h ∧
        ∀ h' ∈ l, ∀ s, dag.nodes.lookup h' = some s → s.drvPath ≠ path := by
  induction l generalizing dag with
  | nil => simp
  | cons x l ih =>
    rw [foldl_cons, ih]
    rw [forall_mem_cons]
    cases hx : dag.nodes.lookup x with
    | none => simp [dropInserted, hx, erase_lookup hx]
    | some s =>
      simp only [dropInserted, hx, lookup_erase_ite, Option.some.injEq, forall_eq']
      constructor
      · rintro ⟨hp, hr⟩
        split at hp
        · simp at hp
        · rename_i hne
          refine ⟨hp, Ne.symm hne, fun h' hh' s' hs' => ?_⟩
          by_cases hh'x : h' = x
          · obtain rfl : s = s' := Option.some.inj (hx.symm.trans (hh'x ▸ hs'))
            exact Ne.symm hne
          · exact hr h' hh' s' (by rw [if_neg hh'x, hs'])
      · rintro ⟨hp, hne, hr⟩
        rw [if_neg (Ne.symm hne)]
        refine ⟨hp, fun h' hh' s' hs' => hr h' hh' s' ?_⟩
        split at hs'
        · simp at hs'
        · exact hs'

theorem rows_foldl_dropInserted {l : List DrvHash} :
    (y ∈ (l.foldl (dropInserted log) dag).children.row x ↔
        y ∈ dag.children.row x ∧ ¬(x ∈ l ∧ x ∉ restoring log)) ∧
      (y ∈ (l.foldl (dropInserted log) dag).parents.row x ↔
        y ∈ dag.parents.row x ∧ ¬(x ∈ l ∧ x ∉ restoring log)) := by
  induction l generalizing dag with
  | nil => simp
  | cons z l ih =>
    rw [foldl_cons, ih.1, ih.2]
    by_cases hz : z ∈ restoring log
    · have hi : (x ∈ z :: l ∧ x ∉ restoring log) ↔ (x ∈ l ∧ x ∉ restoring log) := by
        rw [mem_cons]
        refine ⟨fun ⟨hx, hr⟩ => ⟨hx.resolve_left fun hxz => hr (hxz ▸ hz), hr⟩, ?_⟩
        exact fun ⟨hx, hr⟩ => ⟨.inr hx, hr⟩
      simp only [dropInserted, if_pos hz, hi, and_self]
    · simp only [dropInserted, if_neg hz, row_erase]
      by_cases hx : x = z
      · simp [hx, hz]
      · simp [hx]

theorem mem_row_foldl_dropFrom (f g : γ → DrvHash) {l : List γ} :
    y ∈ row (l.foldl (fun m e => m.dropFrom (f e) (g e)) m) x ↔
      y ∈ m.row x ∧ ∀ e ∈ l, ¬(x = f e ∧ y = g e) := by
  induction l generalizing m with
  | nil => simp
  | cons e l ih =>
    rw [foldl_cons, ih, mem_row_dropFrom, forall_mem_cons, and_assoc]

theorem floors_rollbackMerge : (dag.rollbackMerge order buildId log).resubmitFloors =
      log.floorsConsumed.foldl (fun floors f => floors.insert f.1 f.2) dag.resubmitFloors ∧
    (dag.rollbackMerge order buildId log).softFeatures = dag.softFeatures := by
  simp only [rollbackMerge, foldl_modifyNode, foldl_restore, floors_foldl_dropInserted,
    foldl_dropEdge, and_self]

theorem forall_ne_iff_notMem {l : List (DrvHash × DrvHash)} :
    (∀ e ∈ l, ¬(p = e.1 ∧ c = e.2)) ↔ (p, c) ∉ l := by
  refine ⟨fun ha hm => ha _ hm ⟨rfl, rfl⟩, fun hm e he heq => hm ?_⟩
  obtain ⟨rfl, rfl⟩ := heq
  exact he

theorem mem_children_rollbackMerge : c ∈ (dag.rollbackMerge order buildId log).children.row p ↔
    c ∈ dag.children.row p ∧ (p, c) ∉ log.newEdges ∧
      ¬(p ∈ log.newlyInserted ∧ p ∉ restoring log) := by
  simp only [rollbackMerge, foldl_modifyNode, foldl_restore, rows_foldl_dropInserted,
    foldl_dropEdge, mem_row_foldl_dropFrom, order.mem_nodes]
  rw [forall_ne_iff_notMem, and_assoc]

theorem mem_parents_rollbackMerge : p ∈ (dag.rollbackMerge order buildId log).parents.row c ↔
    p ∈ dag.parents.row c ∧ (p, c) ∉ log.newEdges ∧
      ¬(c ∈ log.newlyInserted ∧ c ∉ restoring log) := by
  simp only [rollbackMerge, foldl_modifyNode, foldl_restore, rows_foldl_dropInserted,
    foldl_dropEdge, mem_row_foldl_dropFrom, order.mem_nodes]
  simp only [and_comm (a := c = _), forall_ne_iff_notMem, and_assoc]

theorem path_rollbackMerge : (dag.rollbackMerge order buildId log).pathToHash.lookup path = some h ↔
    (log.removedRetriable.filter (·.2.drvPath = path)).getLast?.map Prod.fst = some h ∨
      (∀ e ∈ log.removedRetriable, e.2.drvPath ≠ path) ∧ dag.pathToHash.lookup path = some h ∧
        ∀ h' ∈ log.newlyInserted, ∀ s, dag.nodes.lookup h' = some s → s.drvPath ≠ path := by
  simp only [rollbackMerge, foldl_modifyNode, foldl_restore,
    lookup_foldl_insert (fun e : DrvHash × DerivationState ρ => e.2.drvPath) Prod.fst]
  cases hl : (log.removedRetriable.filter (·.2.drvPath = path)).getLast? with
  | none =>
    have hn := getLast?_filter_eq_none.mp hl
    simp only [Option.map_none, Option.none_or, path_foldl_dropInserted, foldl_dropEdge,
      order.mem_nodes]
    exact ⟨fun hp => .inr ⟨hn, hp⟩, fun hp => (hp.resolve_left (by simp)).2⟩
  | some e =>
    obtain ⟨hm, hp⟩ := mem_of_getLast?_filter hl
    exact ⟨.inl, fun h => h.elim id fun ⟨hn, _⟩ => absurd hp (hn e hm)⟩

theorem filter_notMem_restoring (key : γ → DrvHash) (l : List γ) :
    (l.filter (key · ∉ restoring log)).filter (key · = h) =
      if h ∈ restoring log then [] else l.filter (key · = h) := by
  rw [filter_filter]
  split_ifs with hr
  · refine filter_eq_nil_iff.mpr fun x _ => ?_
    simp only [Bool.and_eq_true, decide_eq_true_eq, not_and, not_not]
    exact fun hx => hx ▸ hr
  · refine filter_congr fun x _ => ?_
    by_cases hx : key x = h
    · simp [hx, hr]
    · simp [hx]

theorem foldl_idempotent (hf : ∀ s, f (f s) = f s) (l : List DrvHash)
    (v : Option (DerivationState ρ)) :
    (l.filter (· = h)).foldl (fun v _ => v.map f) v = if h ∈ l then v.map f else v := by
  rw [foldl_overwrite fun _ _ => hf]
  cases hl : (l.filter (· = h)).getLast? with
  | none =>
    rw [if_neg fun hm => getLast?_filter_eq_none.mp hl h hm rfl]
  | some x =>
    obtain ⟨hx, rfl⟩ := mem_of_getLast?_filter hl
    rw [if_pos hx]

theorem getLast?_eq_none_iff_notMem_restoring :
    (log.removedRetriable.filter (·.1 = h)).getLast? = none ↔ h ∉ restoring log := by
  rw [getLast?_filter_eq_none, restoring, mem_map]
  simp only [not_exists, not_and]

theorem setContribution_setContribution (p q : Option (List String)) (s : DerivationState ρ) :
    setContribution buildId p (setContribution buildId q s) = setContribution buildId p s := by
  have hm : (setContribution buildId p (setContribution buildId q s)).wantedByBuild =
      (setContribution buildId p s).wantedByBuild := by
    refine Finmap.ext_lookup fun b => ?_
    cases p <;> cases q <;> simp only [setContribution, lookup_insert_ite, lookup_erase_ite] <;>
      split <;> simp_all
  simp only [setContribution] at hm ⊢
  rw [hm]

theorem lookup_rollbackMerge (hu : ∀ h ∈ restoring log,
      h ∉ log.interestAdded ∧ h ∉ log.traceparentUpgraded) :
    (dag.rollbackMerge order buildId log).nodes.lookup h =
      undoNode buildId log h (dag.nodes.lookup h) := by
  simp only [rollbackMerge, foldl_modifyNode, foldl_restore, nodes_foldl_dropInserted,
    foldl_dropEdge, lookup_foldl_modify, lookup_foldl_insert, lookup_foldl_erase,
    order.mem_nodes, filter_notMem_restoring Prod.fst]
  rw [foldl_idempotent (f := dropInterest buildId) fun s => by simp [dropInterest],
    foldl_idempotent (f := clearTraceparent) fun s => rfl]
  unfold undoNode
  cases hl : (log.removedRetriable.filter (·.1 = h)).getLast? with
  | some e =>
    have hr : h ∈ restoring log := by
      by_contra hr
      simp [getLast?_eq_none_iff_notMem_restoring.mpr hr] at hl
    simp [hr, hu h hr]
  | none =>
    have hr := getLast?_eq_none_iff_notMem_restoring.mp hl
    rw [if_neg hr, if_neg hr]
    rw [foldl_overwrite (f := fun e : DrvHash × Bool => unfill e.2) fun _ _ s => rfl,
      foldl_overwrite
        (f := fun e : DrvHash × Option (List String) => setContribution buildId e.2)
        fun _ _ s => setContribution_setContribution _ _ s,
      filter_reverse, getLast?_reverse]
    unfold undoState
    generalize (log.drvContentBackfilled.filter (·.1 = h)).getLast? = backfilled
    generalize (log.contributionsRecorded.filter (·.1 = h)).head? = recorded
    by_cases hi : h ∈ log.newlyInserted
    · simp only [hi, if_true, Option.map_none, Option.none_or, ite_self]
      cases backfilled <;> cases recorded <;> rfl
    · simp only [hi, Option.map_none, Option.none_or]
      cases dag.nodes.lookup h with
      | none =>
        simp only [Option.map_none, ite_self]
        cases backfilled <;> cases recorded <;> rfl
      | some s =>
        by_cases ht : h ∈ log.traceparentUpgraded <;> by_cases ha : h ∈ log.interestAdded <;>
          simp only [ht, ha] <;> cases backfilled <;> cases recorded <;> rfl

end DerivationDag

end RioBuild.Dag
