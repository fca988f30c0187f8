import RioBuild.Dag.WellFormed

namespace RioBuild.Dag

open Lib DerivationDag List DerivationState

variable {ν ρ ε : Type*}

namespace DerivationState

theorem backfill_cases (parsers : NodeParsers ν ρ ε) (content : List UInt8)
    (s : DerivationState ρ) : s.backfill parsers content = (s, none) ∨
      s.drvContent = [] ∧ content ≠ [] ∧ ∃ inputSrcs, s.backfill parsers content =
        ({ s with inputSrcs, drvContent := content, drvFetchAttempted := false },
          some s.drvFetchAttempted) := by
  unfold backfill rehydrateFromAterm
  split
  · rename_i he
    cases parsers.parseInputSrcs content with
    | none => exact .inl rfl
    | some inputSrcs => exact .inr ⟨he.1, he.2, inputSrcs, rfl⟩
  · exact .inl rfl

theorem backfill_interest (s : DerivationState ρ) (interestedBuilds : Finset Uuid) :
    { s with interestedBuilds }.backfill parsers content =
      ({ s with
          interestedBuilds
          drvContent := (s.backfill parsers content).1.drvContent
          inputSrcs := (s.backfill parsers content).1.inputSrcs
          drvFetchAttempted := (s.backfill parsers content).1.drvFetchAttempted },
        (s.backfill parsers content).2) := by
  unfold backfill rehydrateFromAterm
  by_cases he : s.drvContent = [] ∧ content ≠ []
  · simp only [if_pos he]
    cases parsers.parseInputSrcs content <;> rfl
  · simp [if_neg he]

def touch (parsers : NodeParsers ν ρ ε) (sub : Submission ν) (node : DerivationNode ν)
    (s : DerivationState ρ) : DerivationState ρ :=
  { s with
    interestedBuilds := insert sub.buildId s.interestedBuilds
    drvContent := (s.backfill parsers node.drvContent).1.drvContent
    inputSrcs := (s.backfill parsers node.drvContent).1.inputSrcs
    drvFetchAttempted := (s.backfill parsers node.drvContent).1.drvFetchAttempted
    wantedByBuild := (s.contribute sub.buildId node.wantedOutputNames).1.wantedByBuild
    traceparent := (s.upgradeTraceparent sub.traceparent).1.traceparent }

theorem upgradeTraceparent_eq_true {s : DerivationState ρ} {traceparent : String} :
    (s.upgradeTraceparent traceparent).2 = true ↔ s.traceparent = "" ∧ traceparent ≠ "" := by
  unfold upgradeTraceparent
  split <;> simp_all

end DerivationState

namespace Merging

variable {parsers : NodeParsers ν ρ ε} {sub : Submission ν} {node : DerivationNode ν}
variable {m : Merging ρ}

theorem touchExisting_eq : m.touchExisting parsers sub node s =
    { dag := { m.dag with nodes := m.dag.nodes.insert node.drvHash (s.touch parsers sub node) }
      log := { m.log with
        interestAdded := m.log.interestAdded ++
          if sub.buildId ∉ s.interestedBuilds then [node.drvHash] else []
        drvContentBackfilled := m.log.drvContentBackfilled ++
          ((s.backfill parsers node.drvContent).2.map (node.drvHash, ·)).toList
        contributionsRecorded :=
          m.log.contributionsRecorded ++ [(node.drvHash, s.wantedByBuild.lookup sub.buildId)]
        traceparentUpgraded := m.log.traceparentUpgraded ++
          if (s.upgradeTraceparent sub.traceparent).2 then [node.drvHash] else [] } } := by
  simp only [touchExisting, addInterest, backfill_interest, contribute, touch, upgradeTraceparent,
    decide_eq_true_eq]
  cases (s.backfill parsers node.drvContent).2 <;> split <;> rfl

def Touched (log : MergeResult ρ) (h : DrvHash) : Prop :=
  h ∈ log.contributionsRecorded.map Prod.fst

structure NodesInv (ids : Set (DrvHash × String)) (sub : Submission ν) (dag : DerivationDag ρ)
    (m : Merging ρ) : Prop where
  removed : ∀ e ∈ m.log.removedRetriable, dag.nodes.lookup e.1 = some e.2
  kept : ∀ h ∉ m.log.newlyInserted, h ∉ restoring m.log → ∀ path,
    (h, path) ∈ m.dag.ids ↔ (h, path) ∈ dag.ids
  untouched : ∀ h ∉ m.log.newlyInserted, h ∉ restoring m.log → ¬Touched m.log h →
    m.dag.nodes.lookup h = dag.nodes.lookup h
  added : ∀ h, Added m.log h → h ∉ dag.nodes
  marked : ∀ h, h ∈ m.log.interestAdded ∨ h ∈ m.log.traceparentUpgraded ∨
    h ∈ m.log.drvContentBackfilled.map Prod.fst → Touched m.log h
  unmarked : ∀ h ∈ restoring m.log, h ∉ m.log.interestAdded ∧ h ∉ m.log.traceparentUpgraded
  -- a touched node is never taken out later in the same merge
  touched : ∀ h ∉ m.log.newlyInserted, Touched m.log h → ∀ s, m.dag.nodes.lookup h = some s →
    s.mintsEpochOnResubmit (sub.isRoot s.drvPath) = false
  inserted : ∀ h ∈ m.log.newlyInserted, ∃ s, m.dag.nodes.lookup h = some s ∧
    sub.buildId ∈ s.interestedBuilds ∧ s.traceparent = sub.traceparent
  node_ids : m.dag.ids ⊆ ids
  index : ∀ path h, m.dag.pathToHash.lookup path = some h ↔
    (h, path) ∈ ids ∧ (h ∈ m.dag.nodes ∨ h ∈ restoring m.log)
  floors : ∀ k floor, dag.resubmitFloors.lookup k = some floor ↔
    m.dag.resubmitFloors.lookup k = some floor ∨ (k, floor) ∈ m.log.floorsConsumed

def Whole (m : Merging ρ) : Prop := ∀ h ∈ restoring m.log, h ∈ m.log.newlyInserted

variable {ids : Set (DrvHash × String)} {dag : DerivationDag ρ} {h k : DrvHash}
variable {old fresh s : DerivationState ρ}

theorem mem_ids_congr {dag' : DerivationDag ρ} (hh : dag.nodes.lookup h = dag'.nodes.lookup h) :
    (h, path) ∈ dag.ids ↔ (h, path) ∈ dag'.ids := by
  rw [mem_ids, mem_ids, hh]

theorem mem_nodes_of_lookup {nodes : Map DrvHash (DerivationState ρ)}
    (hs : nodes.lookup h = some s) : h ∈ nodes :=
  Finmap.mem_iff.mpr ⟨s, hs⟩

theorem NodesInv.start (hd : dag.WellFormed) (hid : dag.ids ⊆ ids) (hde : Determined ids) :
    NodesInv ids sub dag { dag } where
  removed _ he := absurd he (not_mem_nil)
  kept _ _ _ _ := Iff.rfl
  untouched _ _ _ _ := rfl
  added _ ha := absurd ha.1 (Finset.notMem_empty _)
  marked _ hm := by simp at hm
  unmarked _ hr := by simp [restoring] at hr
  touched _ _ ht := by simp [Touched] at ht
  inserted _ hi := absurd hi (Finset.notMem_empty _)
  node_ids := hid
  index path h := by
    rw [hd.index]
    constructor
    · exact fun hme => ⟨hid hme, .inl (mem_nodes_iff.mpr ⟨path, hme⟩)⟩
    · rintro ⟨hme, hn | hr⟩
      · exact mem_ids_of_mem_nodes hde hid hme hn
      · simp [restoring] at hr
  floors _ _ := by simp

theorem mem_restoring_takeOut :
    h ∈ restoring (m.takeOut k old).log ↔ h ∈ restoring m.log ∨ h = k := by
  simp [restoring, takeOut]

theorem lookup_takeOut (hh : h ≠ k) : (m.takeOut k old).dag.nodes.lookup h = m.dag.nodes.lookup h :=
  Finmap.lookup_erase_ne hh

theorem lookup_takeOut_self : (m.takeOut k old).dag.nodes.lookup k = none :=
  Finmap.lookup_erase k m.dag.nodes

theorem lookup_of_takeOut (hs : (m.takeOut k old).dag.nodes.lookup h = some s) :
    m.dag.nodes.lookup h = some s := by
  have hne : h ≠ k := by
    rintro rfl
    simp [lookup_takeOut_self] at hs
  exact lookup_takeOut hne ▸ hs

theorem NodesInv.takeOut (hm : NodesInv ids sub dag m) (hw : m.Whole)
    (hi : k ∉ m.log.newlyInserted) (hold : m.dag.nodes.lookup k = some old)
    (hmints : old.mintsEpochOnResubmit (sub.isRoot old.drvPath) = true) :
    NodesInv ids sub dag (m.takeOut k old) := by
  have hr : k ∉ restoring m.log := fun hr => hi (hw k hr)
  have hu : ¬Touched m.log k := fun ht => by
    simp [hm.touched k hi ht old hold] at hmints
  refine { hm with
    removed := ?removed, kept := ?kept, untouched := ?untouched, added := ?added
    unmarked := ?unmarked, touched := ?touched, inserted := ?inserted, node_ids := ?node_ids
    index := ?index }
  case removed =>
    intro e he
    obtain he | he := mem_append.mp he
    · exact hm.removed e he
    · obtain rfl := mem_singleton.mp he
      exact hm.untouched k hi hr hu ▸ hold
  case kept =>
    intro h hh hre path
    rw [mem_restoring_takeOut, not_or] at hre
    rw [mem_ids_congr (lookup_takeOut hre.2)]
    exact hm.kept h hh hre.1 path
  case untouched =>
    intro h hh hre ht
    rw [mem_restoring_takeOut, not_or] at hre
    rw [lookup_takeOut hre.2]
    exact hm.untouched h hh hre.1 ht
  case added =>
    intro h ha
    exact hm.added h ⟨ha.1, fun hre => ha.2 (mem_restoring_takeOut.mpr (.inl hre))⟩
  case unmarked =>
    intro h hre
    obtain hre | rfl := mem_restoring_takeOut.mp hre
    · exact hm.unmarked h hre
    · exact ⟨fun ha => hu (hm.marked h (.inl ha)), fun ht => hu (hm.marked h (.inr (.inl ht)))⟩
  case touched =>
    intro h hh ht s hs
    exact hm.touched h hh ht s (lookup_of_takeOut hs)
  case inserted =>
    intro h hh
    have hne : h ≠ k := fun heq => hi (heq ▸ hh)
    rw [lookup_takeOut hne]
    exact hm.inserted h hh
  case node_ids =>
    rintro ⟨h, path⟩ hme
    obtain ⟨s, hs, hp⟩ := mem_ids.mp hme
    exact hm.node_ids (mem_ids.mpr ⟨s, lookup_of_takeOut hs, hp⟩)
  case index =>
    intro path h
    rw [mem_restoring_takeOut]
    refine (hm.index path h).trans (and_congr_right fun _ => ?_)
    by_cases hh : h = k
    · simp [hh, mem_nodes_of_lookup hold]
    · simp [hh, Merging.takeOut]

theorem mem_touched_touchExisting :
    Touched (m.touchExisting parsers sub node s).log h ↔ Touched m.log h ∨ h = node.drvHash := by
  simp [Touched, touchExisting_eq]

theorem lookup_touchExisting : (m.touchExisting parsers sub node s).dag.nodes.lookup h =
    if h = node.drvHash then some (s.touch parsers sub node) else m.dag.nodes.lookup h := by
  rw [touchExisting_eq, Map.lookup_insert_ite]

theorem ids_touchExisting (hs : m.dag.nodes.lookup node.drvHash = some s) :
    (m.touchExisting parsers sub node s).dag.ids = m.dag.ids := by
  ext ⟨h, path⟩
  rw [mem_ids, mem_ids, lookup_touchExisting]
  split
  · rename_i hh
    rw [hh, hs]
    simp [touch]
  · rfl

theorem mem_interestAdded_touchExisting :
    h ∈ (m.touchExisting parsers sub node s).log.interestAdded ↔
      h ∈ m.log.interestAdded ∨ h = node.drvHash ∧ sub.buildId ∉ s.interestedBuilds := by
  rw [touchExisting_eq]
  by_cases hb : sub.buildId ∈ s.interestedBuilds <;> simp [hb]

theorem mem_traceparentUpgraded_touchExisting :
    h ∈ (m.touchExisting parsers sub node s).log.traceparentUpgraded ↔
      h ∈ m.log.traceparentUpgraded ∨
        h = node.drvHash ∧ s.traceparent = "" ∧ sub.traceparent ≠ "" := by
  rw [touchExisting_eq, ← upgradeTraceparent_eq_true]
  cases (s.upgradeTraceparent sub.traceparent).2 <;> simp

theorem mem_backfilled_touchExisting
    (hh : h ∈ (m.touchExisting parsers sub node s).log.drvContentBackfilled.map Prod.fst) :
    h ∈ m.log.drvContentBackfilled.map Prod.fst ∨ h = node.drvHash := by
  rw [touchExisting_eq, map_append, mem_append] at hh
  refine hh.imp_right fun hh => ?_
  cases hb : (s.backfill parsers node.drvContent).2 with
  | none => simp [hb] at hh
  | some attempted => simpa [hb] using hh

theorem NodesInv.touchExisting (parsers : NodeParsers ν ρ ε) (hm : NodesInv ids sub dag m)
    (hw : m.Whole) (hs : m.dag.nodes.lookup node.drvHash = some s)
    (hmints : node.drvHash ∈ m.log.newlyInserted ∨
      s.mintsEpochOnResubmit (sub.isRoot s.drvPath) = false) :
    NodesInv ids sub dag (m.touchExisting parsers sub node s) := by
  have hid : (m.touchExisting parsers sub node s).dag.ids = m.dag.ids := ids_touchExisting hs
  have hnd h : h ∈ (m.touchExisting parsers sub node s).dag.nodes ↔ h ∈ m.dag.nodes := by
    rw [mem_nodes_iff, mem_nodes_iff, hid]
  refine {
    removed := hm.removed, kept := ?kept, untouched := ?untouched, added := hm.added
    marked := ?marked, unmarked := ?unmarked, touched := ?touched, inserted := ?inserted
    node_ids := hid ▸ hm.node_ids, index := ?index, floors := hm.floors }
  case kept =>
    intro h hh hr path
    rw [hid]
    exact hm.kept h hh hr path
  case untouched =>
    intro h hh hr ht
    rw [mem_touched_touchExisting, not_or] at ht
    rw [lookup_touchExisting, if_neg ht.2]
    exact hm.untouched h hh hr ht.1
  case marked =>
    intro h hh
    rw [mem_touched_touchExisting]
    obtain hh | hh | hh := hh
    · obtain hh | ⟨rfl, _⟩ := mem_interestAdded_touchExisting.mp hh
      · exact .inl (hm.marked h (.inl hh))
      · exact .inr rfl
    · obtain hh | ⟨rfl, _⟩ := mem_traceparentUpgraded_touchExisting.mp hh
      · exact .inl (hm.marked h (.inr (.inl hh)))
      · exact .inr rfl
    · exact (mem_backfilled_touchExisting hh).imp_left fun hh => hm.marked h (.inr (.inr hh))
  case unmarked =>
    intro h hr
    obtain ⟨s', hs', hb, htr⟩ := hm.inserted h (hw h hr)
    rw [mem_interestAdded_touchExisting, mem_traceparentUpgraded_touchExisting]
    refine ⟨?_, ?_⟩
    · rintro (hh | ⟨rfl, hn⟩)
      · exact (hm.unmarked h hr).1 hh
      · obtain rfl := Option.some.inj (hs.symm.trans hs')
        exact hn hb
    · rintro (hh | ⟨rfl, he, hne⟩)
      · exact (hm.unmarked h hr).2 hh
      · obtain rfl := Option.some.inj (hs.symm.trans hs')
        exact hne (htr ▸ he)
  case touched =>
    intro h hh ht s' hs'
    rw [lookup_touchExisting] at hs'
    split_ifs at hs' with heq
    · obtain rfl := Option.some.inj hs'
      exact hmints.resolve_left (heq ▸ hh)
    · rw [mem_touched_touchExisting] at ht
      exact hm.touched h hh (ht.resolve_right heq) s' hs'
  case inserted =>
    intro h hh
    obtain ⟨s', hs', hb, htr⟩ := hm.inserted h hh
    rw [lookup_touchExisting]
    split_ifs with heq
    · subst heq
      obtain rfl := Option.some.inj (hs.symm.trans hs')
      refine ⟨_, rfl, Finset.mem_insert_self _ _, ?_⟩
      simp only [touch, upgradeTraceparent]
      split
      · rfl
      · exact htr
    · exact ⟨s', hs', hb, htr⟩
  case index =>
    intro path h
    rw [hnd]
    exact hm.index path h

theorem exists_insertFresh (sub : Submission ν) (node : DerivationNode ν)
    (fresh : DerivationState ρ) (prior : Option (DerivationState ρ)) (m : Merging ρ) :
    ∃ s, (m.insertFresh sub node fresh prior).dag.nodes = m.dag.nodes.insert node.drvHash s ∧
      (m.insertFresh sub node fresh prior).dag.pathToHash =
        m.dag.pathToHash.insert fresh.drvPath node.drvHash ∧
      s.drvPath = fresh.drvPath ∧ sub.buildId ∈ s.interestedBuilds ∧
      s.traceparent = sub.traceparent := by
  refine ⟨_, rfl, ?_, ?_, ?_, ?_⟩ <;> cases prior <;> simp only [insertFresh] <;>
    cases m.dag.resubmitFloors.lookup node.drvHash <;> simp

theorem lookup_insertFresh_of_notMem
    (hh : h ∉ (m.insertFresh sub node fresh prior).log.newlyInserted) :
    (m.insertFresh sub node fresh prior).dag.nodes.lookup h = m.dag.nodes.lookup h ∧
      h ∉ m.log.newlyInserted := by
  have ho : ¬(h = node.drvHash ∨ h ∈ m.log.newlyInserted) :=
    fun ho => hh (Finset.mem_insert.mpr ho)
  rw [not_or] at ho
  exact ⟨Finmap.lookup_insert_of_ne _ ho.1, ho.2⟩

theorem floors_insertFresh (prior : Option (DerivationState ρ))
    (hf : ∀ k floor, dag.resubmitFloors.lookup k = some floor ↔
      m.dag.resubmitFloors.lookup k = some floor ∨ (k, floor) ∈ m.log.floorsConsumed)
    (k : String) (floor : UInt32) : dag.resubmitFloors.lookup k = some floor ↔
      (m.insertFresh sub node fresh prior).dag.resubmitFloors.lookup k = some floor ∨
        (k, floor) ∈ (m.insertFresh sub node fresh prior).log.floorsConsumed := by
  rw [hf]
  simp only [insertFresh]
  cases prior with
  | some old => simp
  | none =>
    cases hfl : m.dag.resubmitFloors.lookup node.drvHash with
    | none => simp
    | some floor' =>
      by_cases hk : k = node.drvHash
      · subst hk
        simp only [hfl]
        rw [eq_comm]
        simp [or_comm]
      · simp [hk]

theorem NodesInv.insertFresh (prior : Option (DerivationState ρ)) (hd : Determined ids)
    (hm : NodesInv ids sub dag m) (hn : (node.drvHash, node.drvPath) ∈ ids)
    (hnone : m.dag.nodes.lookup node.drvHash = none) (hfresh : fresh.drvPath = node.drvPath) :
    NodesInv ids sub dag (m.insertFresh sub node fresh prior) := by
  obtain ⟨s, hns, hps, hp, hb, htr⟩ := exists_insertFresh sub node fresh prior m
  rw [hfresh] at hp hps
  have hl {h : DrvHash} : (m.insertFresh sub node fresh prior).dag.nodes.lookup h =
      if h = node.drvHash then some s else m.dag.nodes.lookup h := by
    rw [hns, Map.lookup_insert_ite]
  have hi : node.drvHash ∉ m.log.newlyInserted := fun hi => by
    obtain ⟨s', hs', _⟩ := hm.inserted _ hi
    simp [hnone] at hs'
  refine {
    removed := hm.removed, kept := ?kept, untouched := ?untouched, added := ?added
    marked := hm.marked, unmarked := hm.unmarked, touched := ?touched, inserted := ?inserted
    node_ids := ?node_ids, index := ?index, floors := floors_insertFresh prior hm.floors }
  case kept =>
    intro h hh hr path
    obtain ⟨hsa, hh⟩ := lookup_insertFresh_of_notMem hh
    rw [mem_ids_congr hsa]
    exact hm.kept h hh hr path
  case untouched =>
    intro h hh hr ht
    obtain ⟨hsa, hh⟩ := lookup_insertFresh_of_notMem hh
    rw [hsa]
    exact hm.untouched h hh hr ht
  case added =>
    rintro h ⟨hh, hr⟩ hme
    obtain rfl | hh := Finset.mem_insert.mp hh
    · obtain ⟨path, hp⟩ := mem_nodes_iff.mp hme
      obtain ⟨s', hs', _⟩ := mem_ids.mp ((hm.kept _ hi hr path).mpr hp)
      simp [hnone] at hs'
    · exact hm.added h ⟨hh, hr⟩ hme
  case touched =>
    intro h hh ht s' hs'
    obtain ⟨hsa, hh⟩ := lookup_insertFresh_of_notMem hh
    exact hm.touched h hh ht s' (hsa ▸ hs')
  case inserted =>
    intro h hh
    rw [hl]
    split_ifs with hne
    · exact ⟨s, rfl, hb, htr⟩
    · exact hm.inserted h ((Finset.mem_insert.mp hh).resolve_left hne)
  case node_ids =>
    rintro ⟨h, path⟩ hme
    obtain ⟨s', hs', rfl⟩ := mem_ids.mp hme
    rw [hl] at hs'
    split_ifs at hs' with heq
    · obtain rfl := Option.some.inj hs'
      rw [heq, hp]
      exact hn
    · exact hm.node_ids (mem_ids.mpr ⟨s', hs', rfl⟩)
  case index =>
    intro path h
    rw [hps, Map.lookup_insert_ite, hns, Finmap.mem_insert]
    split
    · rename_i heq
      subst heq
      rw [Option.some.injEq]
      refine ⟨fun heq => heq ▸ ⟨hn, .inl (.inl rfl)⟩, fun ⟨hme, _⟩ => hd.hash_eq hn hme⟩
    · rename_i hne
      refine (hm.index path h).trans (and_congr_right fun hme => ?_)
      have hh : h ≠ node.drvHash := fun heq => hne (hd.path_eq (heq ▸ hme) hn)
      rw [or_iff_right hh]
      rfl

theorem takeMintable_cases (sub : Submission ν) (node : DerivationNode ν) (m : Merging ρ) :
    m.takeMintable sub node = (m, none) ∧
        (∀ s, m.dag.nodes.lookup node.drvHash = some s → node.drvHash ∈ m.log.newlyInserted ∨
          s.mintsEpochOnResubmit (sub.isRoot node.drvPath) = false) ∨
      ∃ old, m.takeMintable sub node = (m.takeOut node.drvHash old, some old) ∧
        node.drvHash ∉ m.log.newlyInserted ∧ m.dag.nodes.lookup node.drvHash = some old ∧
        old.mintsEpochOnResubmit (sub.isRoot node.drvPath) = true := by
  unfold takeMintable
  cases hold : m.dag.nodes.lookup node.drvHash with
  | none => exact .inl ⟨rfl, by simp⟩
  | some old =>
    by_cases hmints : node.drvHash ∉ m.log.newlyInserted ∧
        old.mintsEpochOnResubmit (sub.isRoot node.drvPath)
    · exact .inr ⟨old, if_pos hmints, hmints.1, rfl, hmints.2⟩
    · refine .inl ⟨if_neg hmints, ?_⟩
      rintro s ⟨⟩
      by_cases hi : node.drvHash ∈ m.log.newlyInserted
      · exact .inl hi
      · exact .inr (by simpa [hi] using hmints)

inductive NodeStep (parsers : NodeParsers ν ρ ε) (sub : Submission ν) (node : DerivationNode ν)
    (m : Merging ρ) : Merging ρ × Option (DagError ε) → Prop
  | touch (s : DerivationState ρ) (hs : m.dag.nodes.lookup node.drvHash = some s)
      (hmints : node.drvHash ∈ m.log.newlyInserted ∨
        s.mintsEpochOnResubmit (sub.isRoot node.drvPath) = false) :
      NodeStep parsers sub node m (m.touchExisting parsers sub node s, none)
  | refuse (source : ε) (hsource : parsers.parsePath node.drvPath = some source) :
      NodeStep parsers sub node m (m, some (.invalidDrvPath node.drvPath source))
  | insert (fresh : DerivationState ρ) (hnone : m.dag.nodes.lookup node.drvHash = none)
      (hfresh : fresh.drvPath = node.drvPath) :
      NodeStep parsers sub node m (m.insertFresh sub node fresh none, none)
  | takeRefuse (old : DerivationState ρ) (hi : node.drvHash ∉ m.log.newlyInserted)
      (hold : m.dag.nodes.lookup node.drvHash = some old)
      (hmints : old.mintsEpochOnResubmit (sub.isRoot node.drvPath) = true) (source : ε)
      (hsource : parsers.parsePath node.drvPath = some source) :
      NodeStep parsers sub node m
        (m.takeOut node.drvHash old, some (.invalidDrvPath node.drvPath source))
  | takeInsert (old fresh : DerivationState ρ) (hi : node.drvHash ∉ m.log.newlyInserted)
      (hold : m.dag.nodes.lookup node.drvHash = some old)
      (hmints : old.mintsEpochOnResubmit (sub.isRoot node.drvPath) = true)
      (hfresh : fresh.drvPath = node.drvPath) :
      NodeStep parsers sub node m
        ((m.takeOut node.drvHash old).insertFresh sub node fresh (some old), none)

theorem tryFromNode_cases (parsers : NodeParsers ν ρ ε) (softFeatures : List String)
    (node : DerivationNode ν) : (∃ source, parsers.parsePath node.drvPath = some source ∧
        tryFromNode parsers softFeatures node = .error source) ∨
      ∃ fresh : DerivationState ρ, fresh.drvPath = node.drvPath ∧
        tryFromNode parsers softFeatures node = .ok fresh := by
  unfold tryFromNode
  cases parsers.parsePath node.drvPath with
  | some source => exact .inl ⟨source, rfl, rfl⟩
  | none => exact .inr ⟨_, rfl, rfl⟩

theorem nodeStep_mergeNode (parsers : NodeParsers ν ρ ε) (sub : Submission ν)
    (node : DerivationNode ν) (m : Merging ρ) :
    NodeStep parsers sub node m (m.mergeNode parsers sub node) := by
  unfold mergeNode
  obtain ⟨hta, hmints⟩ | ⟨old, hta, hi, hold, hmints⟩ :=
    takeMintable_cases sub node m
  · rw [hta]
    cases hs : m.dag.nodes.lookup node.drvHash with
    | some s =>
      simp only [hs]
      exact .touch s hs (hmints s hs)
    | none =>
      simp only [hs]
      obtain ⟨source, hsource, ht⟩ | ⟨fresh, hfresh, ht⟩ :=
        tryFromNode_cases parsers m.dag.softFeatures node
      · simp only [ht]
        exact .refuse source hsource
      · simp only [ht]
        exact .insert fresh hs hfresh
  · simp only [hta, lookup_takeOut_self]
    obtain ⟨source, hsource, ht⟩ | ⟨fresh, hfresh, ht⟩ :=
      tryFromNode_cases parsers (m.takeOut node.drvHash old).dag.softFeatures node
    · simp only [ht]
      exact .takeRefuse old hi hold hmints source hsource
    · simp only [ht]
      exact .takeInsert old fresh hi hold hmints hfresh

theorem NodeStep.invalid (hst : NodeStep parsers sub node m r) (he : r.2 = some e) :
    ∃ source, parsers.parsePath node.drvPath = some source ∧
      e = .invalidDrvPath node.drvPath source := by
  cases hst with
  | touch | insert | takeInsert => cases he
  | refuse source hsource => exact ⟨source, hsource, (Option.some.inj he).symm⟩
  | takeRefuse old hi hold hmints source hsource =>
    exact ⟨source, hsource, (Option.some.inj he).symm⟩

theorem mergeNodes_rule {P Q : Merging ρ → Prop} {nodes : List (DerivationNode ν)}
    (hst : ∀ node ∈ nodes, ∀ m r, P m → NodeStep parsers sub node m r →
      (r.2 = none → P r.1) ∧ Q r.1) (hm : P m) :
    match mergeNodes parsers sub nodes m with
    | (m', none) => P m'
    | (m', some e) => Q m' ∧ ∃ node ∈ nodes, ∃ source,
      parsers.parsePath node.drvPath = some source ∧ e = .invalidDrvPath node.drvPath source := by
  induction nodes generalizing m with
  | nil => exact hm
  | cons node nodes ih =>
    have hnd := nodeStep_mergeNode parsers sub node m
    have hk := hst node mem_cons_self m _ hm hnd
    unfold mergeNodes
    cases hr : m.mergeNode parsers sub node with
    | mk m' e =>
      rw [hr] at hnd hk
      cases e with
      | none =>
        have hre := ih (fun node hn => hst node (mem_cons_of_mem _ hn)) (hk.1 rfl)
        revert hre
        dsimp only
        split
        · exact id
        · rintro ⟨hq, node', hn, hiv⟩
          exact ⟨hq, node', mem_cons_of_mem _ hn, hiv⟩
      | some e => exact ⟨hk.2, node, mem_cons_self, hnd.invalid rfl⟩

theorem NodesInv.path_eq (hd : Determined ids) (hm : NodesInv ids sub dag m)
    (hn : (node.drvHash, node.drvPath) ∈ ids)
    (hs : m.dag.nodes.lookup node.drvHash = some s) : node.drvPath = s.drvPath :=
  hd.path_eq hn (hm.node_ids (mem_ids.mpr ⟨s, hs, rfl⟩))

theorem NodesInv.step (hd : Determined ids) (hn : (node.drvHash, node.drvPath) ∈ ids)
    (hm : NodesInv ids sub dag m) (hw : m.Whole) (hst : NodeStep parsers sub node m r) :
    NodesInv ids sub dag r.1 ∧ (r.2 = none → r.1.Whole) := by
  cases hst with
  | touch s hs hmints =>
    rw [hm.path_eq hd hn hs] at hmints
    exact ⟨hm.touchExisting parsers hw hs hmints, fun _ => hw⟩
  | refuse source hsource => exact ⟨hm, nofun⟩
  | insert fresh hnone hfresh =>
    refine ⟨hm.insertFresh none hd hn hnone hfresh, fun _ h hr => ?_⟩
    exact Finset.mem_insert_of_mem (hw h hr)
  | takeRefuse old hi hold hmints source hsource =>
    rw [hm.path_eq hd hn hold] at hmints
    exact ⟨hm.takeOut hw hi hold hmints, nofun⟩
  | takeInsert old fresh hi hold hmints hfresh =>
    rw [hm.path_eq hd hn hold] at hmints
    have ht := hm.takeOut hw hi hold hmints
    refine ⟨ht.insertFresh (some old) hd hn lookup_takeOut_self hfresh, fun _ h hr => ?_⟩
    obtain hr | rfl := mem_restoring_takeOut.mp hr
    · exact Finset.mem_insert_of_mem (hw h hr)
    · exact Finset.mem_insert_self _ _

theorem NodesInv.mem_or_restoring (hm : NodesInv ids sub dag m) (hh : h ∈ dag.nodes) :
    h ∈ m.dag.nodes ∨ h ∈ restoring m.log := by
  by_cases hr : h ∈ restoring m.log
  · exact .inr hr
  by_cases hi : h ∈ m.log.newlyInserted
  · obtain ⟨s, hs, _⟩ := hm.inserted h hi
    exact .inl (mem_nodes_of_lookup hs)
  · obtain ⟨path, hp⟩ := mem_nodes_iff.mp hh
    exact .inl (mem_nodes_iff.mpr ⟨path, (hm.kept h hi hr path).mpr hp⟩)

theorem NodesInv.mem_of_whole (hm : NodesInv ids sub dag m) (hw : m.Whole)
    (hh : h ∈ m.dag.nodes ∨ h ∈ restoring m.log) : h ∈ m.dag.nodes := by
  refine hh.elim id fun hr => ?_
  obtain ⟨s, hs, _⟩ := hm.inserted h (hw h hr)
  exact mem_nodes_of_lookup hs

end Merging

end RioBuild.Dag
