import RioBuild.Dag.Edges
import RioBuild.Dag.Recompute

namespace RioBuild.Dag

open Lib Relation List DerivationState

namespace DerivationDag

section Merge

open Merging

variable {dag : DerivationDag ρ} {log : MergeResult ρ}

theorem linked_merge (hd : dag.Mirrored) (hme : dag.merge parsers order sub = (dag', .ok log)) :
    (∀ p c, dag'.Edge p c ↔ dag.Edge p c ∨ (p, c) ∈ log.newEdges) ∧ dag'.Mirrored ∧
      (dag.Acyclic → dag'.Acyclic) := by
  obtain ⟨m, hn, rfl, rfl, hc⟩ := merge_eq_ok hme
  have hl : Linked dag (m.addEdges sub.edges) :=
    addEdges_rule (fun _ e hm => hm.addEdge hd e)
      (frame_mergeNodes hn).edgesInv.linked sub.edges
  refine ⟨hl.children, fun p c => ?_, fun hac v hv => ?_⟩
  · rw [hl.parents, hl.children, hd]
  · exact hc ((hl.hasCycleFromAny_iff order hac).mpr ⟨v, hv⟩)

theorem seen_merge (hme : dag.merge parsers order sub = (dag', .ok log))
    (hh : h ∉ log.newlyInserted) : (dag'.nodes.lookup h).map (fun s => (s.status, s.rest)) =
      (dag.nodes.lookup h).map fun s => (s.status, s.rest) := by
  obtain ⟨m, hn, rfl, rfl, -⟩ := merge_eq_ok hme
  rw [(addEdges_frame sub.edges).1]
  refine seen_mergeNodes (fun _ _ => rfl) hn h ?_
  rwa [show (m.addEdges sub.edges).log.newlyInserted = m.log.newlyInserted from
    addEdges_rule (P := fun m' => m'.log.newlyInserted = m.log.newlyInserted)
      (fun m' e hm' => by unfold addEdge; split <;> exact hm') rfl sub.edges] at hh

end Merge

section Boundary

variable {dag : DerivationDag ρ}

def Boundary (dag : DerivationDag ρ) (inserted : Finset DrvHash) (n : DrvHash) : Prop :=
  ∃ p ∉ inserted, dag.Edge p n

theorem exists_boundary (hh : h ∉ inserted) (hn : n ∈ inserted) (hpa : TransGen dag.Edge h n) :
    ∃ k ∈ inserted, dag.Boundary inserted k ∧ TransGen dag.Edge h k := by
  induction hpa using TransGen.head_induction_on with
  | single hpn => exact ⟨n, hn, ⟨_, hh, hpn⟩, .single hpn⟩
  | @head p c hp _ ih =>
    by_cases hc : c ∈ inserted
    · exact ⟨c, hc, ⟨p, hh, hp⟩, .single hp⟩
    · obtain ⟨k, hk, hbo, hck⟩ := ih hc
      exact ⟨k, hk, hbo, .head hp hck⟩

end Boundary

section Estimates

variable {τ ρ : Type*} {dag dag' : DerivationDag (Hinted τ ρ)} {h : DrvHash} {default : τ}

theorem lookup_refreshEstimate : (dag.refreshEstimate estimate default h).nodes.lookup c =
    if c = h then (dag.nodes.lookup c).map fun s => s.setSched { s.sched with
      estDuration := (estimate s).getD default
      unblocks := UInt32.ofNat (dag.parents.row h).card }
    else dag.nodes.lookup c :=
  Map.lookup_modify

theorem foldl_refreshEstimate (estimate : DerivationState (Hinted τ ρ) → Option τ) (default : τ)
    (dag : DerivationDag (Hinted τ ρ)) (l : List DrvHash) :
    SameGraph dag (l.foldl (refreshEstimate estimate default) dag) ∧
      ∀ h ∉ l, (l.foldl (refreshEstimate estimate default) dag).nodes.lookup h =
        dag.nodes.lookup h := by
  induction l generalizing dag with
  | nil => exact ⟨⟨rfl, rfl⟩, fun _ _ => rfl⟩
  | cons p l ih =>
    obtain ⟨hg, hk⟩ := ih (dag.refreshEstimate estimate default p)
    refine ⟨⟨hg.1, hg.2⟩, fun h hh => ?_⟩
    rw [mem_cons, not_or] at hh
    rw [foldl_cons, hk h hh.2, lookup_refreshEstimate, if_neg hh.1]

def reading (s : DerivationState (Hinted τ ρ)) : DerivationStatus × τ × τ :=
  (s.status, s.sched.estDuration, s.sched.priority)

theorem live_of_reading (hr : (dag'.nodes.lookup h).map reading =
    (dag.nodes.lookup h).map reading) : dag'.live h = dag.live h := by
  have hl (s : Option (DerivationState (Hinted τ ρ))) : s.bind livePriority =
      (s.map reading).bind fun r => if r.1.isTerminal then none else some r.2.2 := by
    cases s <;> rfl
  rw [live, live, hl, hl, hr]

theorem live_eq_some : dag.live h = some q ↔
    ∃ s, dag.nodes.lookup h = some s ∧ s.status.isTerminal = false ∧ s.sched.priority = q := by
  rw [live, Option.bind_eq_some_iff]
  refine exists_congr fun s => and_congr_right fun _ => ?_
  rw [livePriority]
  cases s.status.isTerminal with
  | true | false => simp

theorem reading_refreshEstimate {l : List DrvHash} (hn : l.Nodup)
    (hsa : ∀ h ∈ l, ∀ s, dag.nodes.lookup h = some s →
      (estimate s).getD default = s.sched.estDuration) (h : DrvHash) :
    ((l.foldl (refreshEstimate estimate default) dag).nodes.lookup h).map reading =
      (dag.nodes.lookup h).map reading := by
  induction l generalizing dag with
  | nil => rfl
  | cons p l ih =>
    obtain ⟨hp, hn⟩ := nodup_cons.mp hn
    obtain ⟨hfirst, hr⟩ := forall_mem_cons.mp hsa
    rw [foldl_cons, ih hn]
    · rw [lookup_refreshEstimate]
      split_ifs with heq
      · subst heq
        cases hs : dag.nodes.lookup h with
        | none => rfl
        | some s =>
          simp only [Option.map_some]
          rw [hfirst s hs]
          rfl
      · rfl
    · intro q hq s hs
      have hne : q ≠ p := fun heq => hp (heq ▸ hq)
      rw [lookup_refreshEstimate, if_neg hne] at hs
      exact hr q hq s hs

theorem lookup_of_reading
    (hr : (dag'.nodes.lookup h).map reading = (dag.nodes.lookup h).map reading)
    (hs : dag.nodes.lookup h = some s) :
    ∃ s', dag'.nodes.lookup h = some s' ∧ reading s' = reading s := by
  rw [hs] at hr
  exact Option.map_eq_some_iff.mp hr

variable {iter : IterOrder}

theorem reading_merge (hm : dag.merge parsers iter sub = (dag', .ok log))
    (hh : h ∉ log.newlyInserted) :
    (dag'.nodes.lookup h).map reading = (dag.nodes.lookup h).map reading := by
  have hv (s : Option (DerivationState (Hinted τ ρ))) : s.map reading =
      (s.map fun s => (s.status, s.rest)).map fun v =>
        (v.1, v.2.sched.estDuration, v.2.sched.priority) := by
    cases s <;> rfl
  rw [hv, hv, seen_merge hm hh]

end Estimates

section Incremental

variable {τ ρ : Type*} [AddCommMonoid τ] [LinearOrder τ] {order : SweepOrder}
  {dag dag' : DerivationDag (Hinted τ ρ)} {h : DrvHash}

theorem foldl_max_le_iff [AddLeftMono τ] {l : List τ} :
    e + l.foldl max x ≤ y ↔ e + x ≤ y ∧ ∀ q ∈ l, e + q ≤ y := by
  induction l generalizing x with
  | nil => simp
  | cons q l ih => rw [foldl_cons, ih, ← max_add_add_left, max_le_iff, forall_mem_cons, and_assoc]

theorem add_nonterminalChildMax_le_iff [AddLeftMono τ] : e + dag.nonterminalChildMax order h ≤ y ↔
    e ≤ y ∧ ∀ c, dag.Edge h c → ∀ q, dag.live c = some q → e + q ≤ y := by
  rw [nonterminalChildMax, foldl_max_le_iff, add_zero]
  refine and_congr_right fun _ => ⟨fun hal c hc q hq => ?_, fun hal q hq => ?_⟩
  · exact hal q (mem_filterMap.mpr ⟨c, mem_getChildren.mpr hc, hq⟩)
  · obtain ⟨c, hc, hq⟩ := mem_filterMap.mp hq
    exact hal c (mem_getChildren.mp hc) q hq

/-- After some of the climbs: the inserted nodes and all above the starts of the climbs are
settled, the others are as they were. -/
structure Climbing (order : SweepOrder) (inserted : Finset DrvHash) (starts : Set DrvHash)
    (dag dag' : DerivationDag (Hinted τ ρ)) : Prop where
  graph : SameGraph dag dag'
  settled : ∀ h, h ∈ inserted ∨ (∃ n ∈ starts, TransGen dag.Edge h n) → dag'.Settled order h
  kept : ∀ h ∉ inserted, (∀ n ∈ starts, ¬TransGen dag.Edge h n) →
    dag'.nodes.lookup h = dag.nodes.lookup h

theorem Climbing.climb (hda : dag.Mirrored) (hac : dag.Acyclic)
    (hd : Climbing order inserted starts dag dag') (n : DrvHash) :
    ∃ dag'', dag'.updateAncestors order n = some dag'' ∧
      Climbing order inserted (insert n starts) dag dag'' := by
  obtain ⟨cone, dag'', hru, hr, hco⟩ :=
    updateAncestors_eq (hd.graph.mirrored hda) (hd.graph.acyclic hac) order n
  rw [hd.graph.edge] at hco
  refine ⟨dag'', hru, ⟨hr.graph.1.trans hd.graph.1, hr.graph.2.trans hd.graph.2⟩,
    fun h hh => ?_, fun h hh hbe => ?_⟩
  · by_cases hm : h ∈ cone
    · exact hr.settled hm
    · -- a cone is closed upwards
      have hbe : ∀ c ∈ dag'.children.row h, c ∉ cone := by
        intro c hc hm'
        rw [hd.graph.1] at hc
        exact hm ((hco h).mpr (.head hc ((hco c).mp hm')))
      refine (hr.settled_iff hm hbe).mpr (hd.settled h (hh.imp_right ?_))
      rintro ⟨n', rfl | hn', hp⟩
      · exact absurd ((hco h).mpr hp) hm
      · exact ⟨n', hn', hp⟩
  · have hm : h ∉ cone := fun hm => hbe n (Set.mem_insert n _) ((hco h).mp hm)
    rw [hr.kept h hm]
    exact hd.kept h hh fun n' hn' => hbe n' (Set.mem_insert_of_mem n hn')

theorem Climbing.climbs (hda : dag.Mirrored) (hac : dag.Acyclic)
    (hd : Climbing order inserted starts dag dag') (l : List DrvHash) :
    ∃ dag'', l.foldlM (fun dag h =>
        if (dag.getParents order h).any (· ∉ inserted) then dag.updateAncestors order h
        else some dag) dag' = some dag'' ∧
      Climbing order inserted (starts ∪ {n | n ∈ l ∧ dag.Boundary inserted n}) dag dag'' := by
  induction l generalizing starts dag' with
  | nil => exact ⟨dag', rfl, by simpa using hd⟩
  | cons n l ih =>
    have han : (dag'.getParents order n).any (· ∉ inserted) = true ↔ dag.Boundary inserted n := by
      simp only [any_eq_true, mem_getParents, decide_eq_true_eq, hd.graph.2, hda _ n]
      exact exists_congr fun p => and_comm
    rw [foldlM_cons]
    by_cases hn : dag.Boundary inserted n
    · obtain ⟨dag2, hru, hd2⟩ := hd.climb hda hac n
      obtain ⟨dag3, hr, hd3⟩ := ih hd2
      refine ⟨dag3, ?_, ?_⟩
      · rw [if_pos (han.mpr hn), hru]
        exact hr
      · convert hd3 using 1
        ext k
        by_cases hk : k = n
        · simp [hk, hn]
        · simp [hk]
    · obtain ⟨dag3, hr, hd3⟩ := ih hd
      refine ⟨dag3, ?_, ?_⟩
      · rw [if_neg (mt han.mp hn)]
        exact hr
      · convert hd3 using 1
        ext k
        by_cases hk : k = n
        · simp [hk, hn]
        · simp [hk]

theorem computeInitial_eq (hda : dag.Mirrored) (hac : dag.Acyclic) (order : SweepOrder)
    (sla : SlaEstimator τ ρ) (inserted : Finset DrvHash) :
    ∃ dag', dag.computeInitial order sla inserted = some dag' ∧
      Climbing order inserted inserted dag dag' := by
  unfold computeInitial
  by_cases he : inserted = ∅
  · subst he
    refine ⟨dag, if_pos rfl, ⟨rfl, rfl⟩, fun h hh => ?_, fun _ _ _ => rfl⟩
    simp at hh
  rw [if_neg he]
  have hl := (order.scope.2 inserted).2
  obtain ⟨hg, hke⟩ := foldl_refreshEstimate sla.refEstimate sla.defaultDurationSecs dag
    (order.scope.1 inserted)
  obtain ⟨dag2, hru, hr⟩ := topoRecompute_eq (hg.mirrored hda) (hg.acyclic hac) order none inserted
  have hs : Climbing order inserted ∅ dag dag2 := by
    refine ⟨⟨hr.graph.1.trans hg.1, hr.graph.2.trans hg.2⟩, fun h hh => ?_, fun h hh _ => ?_⟩
    · exact hr.settled (hh.resolve_right (by simp))
    · rw [hr.kept h hh, hke h (mt (hl h).mp hh)]
  obtain ⟨dag', hc, hd⟩ := hs.climbs hda hac (order.scope.1 inserted)
  refine ⟨dag', ?_, hd.graph, fun h hh => hd.settled h ?_, fun h hh hbe => hd.kept h hh ?_⟩
  · dsimp only
    rw [hru]
    exact hc
  · by_cases hi : h ∈ inserted
    · exact .inl hi
    · obtain ⟨n, hn, hp⟩ := hh.resolve_left hi
      obtain ⟨k, hk, hbo, hp⟩ := exists_boundary hi hn hp
      exact .inr ⟨k, .inr ⟨(hl k).mpr hk, hbo⟩, hp⟩
  · rintro n (hn | ⟨hn, -⟩)
    · exact absurd hn (Set.notMem_empty n)
    · exact hbe n ((hl n).mp hn)

theorem Settled.of_reading (hg : SameGraph dag dag')
    (hrd : ∀ h, (dag'.nodes.lookup h).map reading = (dag.nodes.lookup h).map reading)
    (hs : dag.Settled order h) : dag'.Settled order h := by
  intro s' hs' hl
  have hm : dag'.nonterminalChildMax order h = dag.nonterminalChildMax order h :=
    nonterminalChildMax_congr (by rw [hg.1]) fun c _ => live_of_reading (hrd c)
  have hr := hrd h
  rw [hs'] at hr
  obtain ⟨s, hlk, heq⟩ := Option.map_eq_some_iff.mp hr.symm
  obtain ⟨hst, he, hp⟩ : s.status = s'.status ∧
      s.sched.estDuration = s'.sched.estDuration ∧ s.sched.priority = s'.sched.priority := by
    simpa [reading] using heq
  rw [hm, ← he, ← hp]
  exact hs s hlk (hst ▸ hl)

theorem recompute_settled (hs : dag.Settled order h)
    (hli : ∀ s, dag.nodes.lookup h = some s → s.status.isTerminal = false) :
    dag.recompute order h = dag := by
  have hn : dag.nodes.modify h (fun s => s.setPriority
      (s.sched.estDuration + dag.nonterminalChildMax order h)) = dag.nodes := by
    unfold Map.modify
    split
    · rename_i s hl
      refine Map.insert_lookup ?_
      dsimp only
      rw [← hs s hl (hli s hl)]
      exact hl
    · rfl
  rw [recompute, modifyNode, hn]

theorem foldl_recompute_settled {l : List DrvHash} (hl : ∀ h ∈ l, dag.recompute order h = dag) :
    l.foldl (recompute order) dag = dag := by
  induction l with
  | nil => rfl
  | cons h l ih =>
    obtain ⟨hh, hl⟩ := forall_mem_cons.mp hl
    rw [foldl_cons, hh, ih hl]

theorem fullSweep_consistent (hd : dag.Mirrored) (hac : dag.Acyclic)
    (hc : dag.Consistent order) (hsa : ∀ h s, dag.nodes.lookup h = some s →
      s.status.isTerminal = false →
        (sla.peekTMin s).getD sla.defaultDurationSecs = s.sched.estDuration) :
    ∃ dag', dag.fullSweep order sla = some dag' ∧
      ∀ h, (dag'.nodes.lookup h).map (·.sched.priority) =
        (dag.nodes.lookup h).map (·.sched.priority) := by
  have hp (s : Option (DerivationState (Hinted τ ρ))) :
      s.map (·.sched.priority) = (s.map reading).map (·.2.2) := by
    cases s <;> rfl
  unfold fullSweep
  set scope := dag.nodes.keysWhere fun s => !s.status.isTerminal with hsc
  by_cases he : scope = ∅
  · exact ⟨dag, if_pos he, fun _ => rfl⟩
  rw [if_neg he]
  obtain ⟨hn, hm⟩ := order.scope.2 scope
  have hli : ∀ h ∈ scope, ∀ s, dag.nodes.lookup h = some s → s.status.isTerminal = false := by
    intro h hh s hs
    obtain ⟨s', hs', hli⟩ := Map.mem_keysWhere.mp hh
    rw [hs] at hs'
    cases hs'
    simpa using hli
  obtain ⟨hg, -⟩ :=
    foldl_refreshEstimate sla.peekTMin sla.defaultDurationSecs dag (order.scope.1 scope)
  have hrd := reading_refreshEstimate hn fun h hh s hs => hsa h s hs (hli h ((hm h).mp hh) s hs)
  set dag1 := (order.scope.1 scope).foldl
    (refreshEstimate sla.peekTMin sla.defaultDurationSecs) dag
  obtain ⟨l, hl, -, hlm, -⟩ :=
    kahnTopo_eq order (hg.mirrored hd) (hg.acyclic hac) none scope
  have hli1 : ∀ h ∈ l, ∀ s, dag1.nodes.lookup h = some s → s.status.isTerminal = false := by
    intro h hh s hs
    have hr := hrd h
    rw [hs] at hr
    obtain ⟨s', hs', heq⟩ := Option.map_eq_some_iff.mp hr.symm
    rw [← (Prod.mk.inj heq).1]
    exact hli h ((hlm h).mp hh) s' hs'
  have hf : l.foldl (recompute order) dag1 = dag1 :=
    foldl_recompute_settled fun h hh =>
      recompute_settled ((hc h).of_reading hg hrd) (hli1 h hh)
  refine ⟨dag1, ?_, fun h => ?_⟩
  · rw [topoRecompute, hl, Option.map_some, hf]
  · rw [hp, hp, hrd]

theorem settled_iff_of_kept [AddLeftMono τ] (hs : dag.nodes.lookup h = some s)
    (hte : s.status.isTerminal = false) (hse : dag.Settled order h)
    (hr : ∀ c, c = h ∨ dag'.Edge h c →
      (dag'.nodes.lookup c).map reading = (dag.nodes.lookup c).map reading)
    (he : ∀ c, dag.Edge h c → dag'.Edge h c) :
    dag'.Settled order h ↔ ∀ c, dag'.Edge h c → ∀ q, dag.live c = some q →
      s.sched.estDuration + q ≤ s.sched.priority := by
  obtain ⟨s', hs', heq⟩ := lookup_of_reading (hr h (.inl rfl)) hs
  obtain ⟨hst, hes, hp⟩ : s'.status = s.status ∧
      s'.sched.estDuration = s.sched.estDuration ∧ s'.sched.priority = s.sched.priority := by
    simpa [reading] using heq
  have hl : ∀ c, dag'.Edge h c → dag'.live c = dag.live c :=
    fun c hc => live_of_reading (hr c (.inr hc))
  have ho := hse s hs hte
  have hsel := (add_nonterminalChildMax_le_iff.mp (le_of_eq ho.symm)).1
  constructor
  · intro hse' c hc q hq
    have hn := hse' s' hs' (hst ▸ hte)
    rw [hes, hp] at hn
    exact (add_nonterminalChildMax_le_iff.mp (le_of_eq hn.symm)).2 c hc q (hl c hc ▸ hq)
  · intro hal t ht _
    rw [hs'] at ht
    cases ht
    rw [hes, hp]
    refine le_antisymm ?_ (add_nonterminalChildMax_le_iff.mpr ⟨hsel, fun c hc q hq => ?_⟩)
    · obtain ⟨hsel', hch'⟩ := add_nonterminalChildMax_le_iff.mp
        (le_refl (s.sched.estDuration + dag'.nonterminalChildMax order h))
      rw [ho]
      exact add_nonterminalChildMax_le_iff.mpr
        ⟨hsel', fun c hc q hq => hch' c (he c hc) q (hl c (he c hc) ▸ hq)⟩
    · exact hal c hc q (hl c hc ▸ hq)

/-- Where nothing was inserted below, a new edge makes no path longer. -/
def NoneLonger (dag merged : DerivationDag (Hinted τ ρ)) (log : MergeResult (Hinted τ ρ)) : Prop :=
  ∀ p c, (p, c) ∈ log.newEdges → p ∉ log.newlyInserted →
    (∀ n ∈ log.newlyInserted, ¬TransGen merged.Edge p n) →
    ∀ s t, dag.nodes.lookup p = some s → dag.nodes.lookup c = some t →
      s.status.isTerminal = false → t.status.isTerminal = false →
        s.sched.estDuration + t.sched.priority ≤ s.sched.priority

variable {iter : IterOrder}

theorem Climbing.reading_eq (hm : dag.merge parsers iter sub = (dag1, .ok log))
    (hd : Climbing order log.newlyInserted log.newlyInserted dag1 dag')
    (hh : h ∉ log.newlyInserted) (hbe : ∀ n ∈ log.newlyInserted, ¬TransGen dag1.Edge h n)
    (hc : c = h ∨ dag'.Edge h c) :
    (dag'.nodes.lookup c).map reading = (dag.nodes.lookup c).map reading := by
  rw [hd.graph.edge] at hc
  have hc' : c ∉ log.newlyInserted := by
    rcases hc with rfl | hc
    · exact hh
    · exact fun hi => hbe c hi (.single hc)
  have hbe' : ∀ n ∈ log.newlyInserted, ¬TransGen dag1.Edge c n := by
    rcases hc with rfl | hc
    · exact hbe
    · exact fun n hn hp => hbe n hn (.head hc hp)
  rw [hd.kept c hc' hbe', reading_merge hm hc']

theorem Climbing.consistent_iff [AddLeftMono τ] (hda : dag.Mirrored) (hc : dag.Consistent order)
    (hm : dag.merge parsers iter sub = (dag₁, .ok log))
    (hd : Climbing order log.newlyInserted log.newlyInserted dag₁ dag') :
    dag'.Consistent order ↔ NoneLonger dag dag₁ log := by
  have he : ∀ p c, dag'.Edge p c ↔ dag.Edge p c ∨ (p, c) ∈ log.newEdges := by
    rw [hd.graph.edge]
    exact (linked_merge hda hm).1
  constructor
  · intro hco p c hne hp hbe s t hs ht hte hte'
    have hi := settled_iff_of_kept hs hte (hc p) (fun c => hd.reading_eq hm hp hbe)
      fun c hpc => (he p c).mpr (.inl hpc)
    exact hi.mp (hco p) c ((he p c).mpr (.inr hne)) _ (live_eq_some.mpr ⟨t, ht, hte', rfl⟩)
  · intro hno h s' hs' hte'
    by_cases hab : h ∈ log.newlyInserted ∨ ∃ n ∈ log.newlyInserted, TransGen dag₁.Edge h n
    · exact hd.settled h hab s' hs' hte'
    · obtain ⟨hh, hbe⟩ := not_or.mp hab
      have hbe : ∀ n ∈ log.newlyInserted, ¬TransGen dag₁.Edge h n :=
        fun n hn hpa => hbe ⟨n, hn, hpa⟩
      have hr : ∀ c, c = h ∨ dag'.Edge h c → _ := fun c => hd.reading_eq hm hh hbe
      obtain ⟨s, hs, heq⟩ := lookup_of_reading (hr h (.inl rfl)).symm hs'
      have hte : s.status.isTerminal = false := by
        rw [(Prod.mk.inj heq).1]
        exact hte'
      refine (settled_iff_of_kept hs hte (hc h) hr fun c hhc =>
        (he h c).mpr (.inl hhc)).mpr (fun c hhc q hq => ?_) s' hs' hte'
      rcases (he h c).mp hhc with ho | hne
      · exact (add_nonterminalChildMax_le_iff.mp (le_of_eq (hc h s hs hte).symm)).2 c ho q hq
      · obtain ⟨t, ht, hte'', rfl⟩ := live_eq_some.mp hq
        exact hno h c hne hh hbe s t hs ht hte hte''

theorem nonterminalChildMax_order [AddLeftMono τ] (order order' : SweepOrder) (h : DrvHash) :
    dag.nonterminalChildMax order h = dag.nonterminalChildMax order' h := by
  have hle order order' : dag.nonterminalChildMax order h ≤ dag.nonterminalChildMax order' h := by
    have hs := add_nonterminalChildMax_le_iff.mp (le_refl (0 + dag.nonterminalChildMax order' h))
    have ho : 0 + dag.nonterminalChildMax order h ≤ 0 + dag.nonterminalChildMax order' h :=
      add_nonterminalChildMax_le_iff.mpr hs
    rwa [zero_add, zero_add] at ho
  exact le_antisymm (hle order order') (hle order' order)

theorem Consistent.anyOrder [AddLeftMono τ] (hc : dag.Consistent order) (order' : SweepOrder) :
    dag.Consistent order' := by
  intro h s hs ht
  rw [nonterminalChildMax_order order' order]
  exact hc h s hs ht

/-- After a merge and `compute_initial` on its nodes every priority is that of the recurrence,
and a sweep changes none, exactly when no new edge between nodes that were there, above nothing
inserted, makes a path longer. -/
theorem computeInitial_consistent_iff [AddLeftMono τ] (hdag : dag.Mirrored)
    (hacyclic : dag.Acyclic) (hc : dag.Consistent order)
    (hmerge : dag.merge parsers iter sub = (dag₁, .ok log)) (sla : SlaEstimator τ ρ) :
    ∃ dag', dag₁.computeInitial order sla log.newlyInserted = some dag' ∧
      (dag'.Consistent order ↔ NoneLonger dag dag₁ log) ∧
      (dag'.Consistent order → ∀ (order' : SweepOrder) (sla' : SlaEstimator τ ρ),
        (∀ h s, dag'.nodes.lookup h = some s → s.status.isTerminal = false →
          (sla'.peekTMin s).getD sla'.defaultDurationSecs = s.sched.estDuration) →
        ∃ dag'', dag'.fullSweep order' sla' = some dag'' ∧
          ∀ h, (dag''.nodes.lookup h).map (·.sched.priority) =
            (dag'.nodes.lookup h).map (·.sched.priority)) := by
  obtain ⟨-, hdag₁, hacyclic₁⟩ := linked_merge hdag hmerge
  obtain ⟨dag', hr, hd⟩ :=
    computeInitial_eq hdag₁ (hacyclic₁ hacyclic) order sla log.newlyInserted
  refine ⟨dag', hr, hd.consistent_iff hdag hc hmerge, fun hc' order' sla' hs => ?_⟩
  exact fullSweep_consistent (hd.graph.mirrored hdag₁) (hd.graph.acyclic (hacyclic₁ hacyclic))
    (hc'.anyOrder order') hs

end Incremental

section Terminal

theorem foldl_max_mem [LinearOrder τ] {l : List τ} : l.foldl max x = x ∨ l.foldl max x ∈ l := by
  induction l generalizing x with
  | nil => exact .inl rfl
  | cons q l ih =>
    rw [foldl_cons, mem_cons]
    rcases ih with h | h
    · rw [h]
      exact (max_choice x q).imp_right .inl
    · exact .inr (.inr h)

variable {τ ρ : Type*} [AddCommMonoid τ] [LinearOrder τ] {order : SweepOrder}
  {dag : DerivationDag (Hinted τ ρ)}

inductive LivePath (dag : DerivationDag (Hinted τ ρ)) : DrvHash → τ → Prop
  | last : dag.nodes.lookup h = some s → s.status.isTerminal = false →
    LivePath dag h s.sched.estDuration
  | cons : dag.nodes.lookup h = some s → s.status.isTerminal = false → dag.Edge h c →
    LivePath dag c d → LivePath dag h (s.sched.estDuration + d)

theorem livePath_priority (hac : dag.Acyclic) (hc : dag.Consistent order)
    (hq : dag.live h = some q) : dag.LivePath h q := by
  classical
  by_contra hnot
  let bad := dag.nodes.keys.filter fun h => ∃ q, dag.live h = some q ∧ ¬dag.LivePath h q
  have hme {h : DrvHash} : h ∈ bad ↔ ∃ q, dag.live h = some q ∧ ¬dag.LivePath h q := by
    refine Finset.mem_filter.trans (and_iff_right_of_imp ?_)
    rintro ⟨q, hq, -⟩
    obtain ⟨s, hs, -⟩ := live_eq_some.mp hq
    exact Finmap.mem_keys.mpr (Finmap.mem_of_lookup_eq_some hs)
  obtain ⟨m, hm, hmi⟩ := Kahn.exists_minimal hac ⟨h, hme.mpr ⟨q, hq, hnot⟩⟩
  obtain ⟨q, hq, hn⟩ := hme.mp hm
  obtain ⟨s, hs, hl, rfl⟩ := live_eq_some.mp hq
  rw [hc m s hs hl, nonterminalChildMax] at hn
  -- the greatest of the children's priorities is that of a path, which `m` makes longer
  rcases foldl_max_mem (l := (dag.getChildren order m).filterMap fun c =>
    (dag.nodes.lookup c).bind livePriority) with hz | hch
  · rw [hz, add_zero] at hn
    exact hn (.last hs hl)
  · obtain ⟨c, hch, hma⟩ := mem_filterMap.mp hch
    have he := mem_getChildren.mp hch
    have hp := not_not.mp fun hba => hmi c (hme.mpr ⟨_, hma, hba⟩) he
    exact hn (.cons hs hl he hp)

variable [AddLeftMono τ]

theorem LivePath.le (hp : dag.LivePath h d) (hc : dag.Consistent order) :
    ∃ q, dag.live h = some q ∧ d ≤ q := by
  induction hp with
  | last hs hl =>
    refine ⟨_, live_eq_some.mpr ⟨_, hs, hl, rfl⟩, ?_⟩
    rw [hc _ _ hs hl]
    exact (add_nonterminalChildMax_le_iff.mp le_rfl).1
  | cons hs hl he _ ih =>
    obtain ⟨q, hq, hle⟩ := ih
    refine ⟨_, live_eq_some.mpr ⟨_, hs, hl, rfl⟩, ?_⟩
    rw [hc _ _ hs hl]
    exact (add_le_add_right hle _).trans ((add_nonterminalChildMax_le_iff.mp le_rfl).2 _ he q hq)

/-- Where a node becomes terminal, the update from it makes every priority that of the recurrence
again and touches nothing but what is above; and such priorities are longest paths. -/
theorem updateAncestors_consistent (hdag : dag.Mirrored) (hacyclic : dag.Acyclic)
    (hc : dag.Consistent order) : (∀ x status, status.isTerminal = true → ∃ dag',
      (dag.setStatus x status).updateAncestors order x = some dag' ∧ dag'.Consistent order ∧
        ∀ h, ¬TransGen dag.Edge h x →
          dag'.nodes.lookup h = (dag.setStatus x status).nodes.lookup h) ∧
      ∀ h s, dag.nodes.lookup h = some s → s.status.isTerminal = false →
        IsGreatest {d | dag.LivePath h d} s.sched.priority := by
  refine ⟨fun x status ht => ?_, fun h s hs hl => ?_⟩
  · have hse : (dag.setStatus x status).Mirrored := hdag
    obtain ⟨cone, dag', hru, hr, hco⟩ := updateAncestors_eq hse hacyclic order x
    refine ⟨dag', hru, fun h => ?_, fun h hh => hr.kept h (mt (hco h).mp hh)⟩
    by_cases hh : h ∈ cone
    · exact hr.settled hh
    · -- nothing changes below what is not above `x`
      have hbe : ∀ c, dag.Edge h c → c ≠ x ∧ c ∉ cone := fun c he =>
        ⟨fun heq => hh ((hco h).mpr (heq ▸ .single he)),
          fun hm => hh ((hco h).mpr (.head he ((hco c).mp hm)))⟩
      refine (hr.settled_iff hh fun c he => (hbe c he).2).mpr ?_
      intro s hs hl
      rw [setStatus, modifyNode, Map.lookup_modify] at hs
      have hma : (dag.setStatus x status).nonterminalChildMax order h =
          dag.nonterminalChildMax order h :=
        nonterminalChildMax_congr rfl fun c he => live_of_lookup <| by
          rw [setStatus, modifyNode, Map.lookup_modify, if_neg (hbe c he).1]
      rw [hma]
      split at hs
      · obtain ⟨s', -, rfl⟩ := Option.map_eq_some_iff.mp hs
        rw [ht] at hl
        cases hl
      · exact hc h s hs hl
  · refine ⟨livePath_priority hacyclic hc (live_eq_some.mpr ⟨s, hs, hl, rfl⟩), fun d hd => ?_⟩
    obtain ⟨q, hq, hle⟩ := LivePath.le hd hc
    obtain ⟨s', hs', -, rfl⟩ := live_eq_some.mp hq
    cases hs.symm.trans hs'
    exact hle

end Terminal

def listFrom (first : List DrvHash) (hfirst : first.Nodup) : Listing :=
  ⟨fun s => first.filter (· ∈ s) ++ (s \ first.toFinset).sort (· ≤ ·), fun s => by
    refine ⟨nodup_append.mpr ⟨hfirst.filter _, Finset.sort_nodup _ _, ?_⟩, fun h => ?_⟩
    · rintro a ha b hb rfl
      simp_all
    · by_cases hh : h ∈ first <;> simp [hh]⟩

def sweepFrom (first : List DrvHash) (hfirst : first.Nodup) : SweepOrder where
  children _ := listFrom first hfirst
  parents _ := listFrom first hfirst
  scope := listFrom first hfirst
  degrees _ := listFrom first hfirst

def runningNode (h : DrvHash) : DerivationState (Hinted Nat Unit) :=
  { drvHash := h, drvPath := "/" ++ h, status := .running, drvContent := [], inputSrcs := []
    rest := ⟨⟨60, 60, 0⟩, ()⟩ }

def twoRunning : DerivationDag (Hinted Nat Unit) where
  nodes := (Finmap.insert "a" (runningNode "a") ∅).insert "b" (runningNode "b")
  pathToHash := (Finmap.insert "/a" "a" ∅).insert "/b" "b"

def hintedParsers : NodeParsers Unit (Hinted Nat Unit) Unit where
  parsePath _ := none
  parseInputSrcs _ := none
  restOf _ _ := ⟨⟨0, 0, 0⟩, ()⟩

def flatSla : SlaEstimator Nat Unit where
  refEstimate _ := none
  peekTMin _ := none
  defaultDurationSecs := 60

theorem twoRunning_consistent : twoRunning.Mirrored ∧ twoRunning.Acyclic ∧
    twoRunning.Consistent (sweepFrom ["a", "b", "r"] (by decide)) := by
  refine ⟨by simp [Mirrored, twoRunning, Map.row], fun v hv => ?_,
    consistent_of_keys (by decide +kernel)⟩
  obtain ⟨c, hc, -⟩ := TransGen.head'_iff.mp hv
  simp [Edge, twoRunning, Map.row] at hc

def ranked (h : DrvHash) (priority : Nat) : DerivationState (Hinted Nat Unit) :=
  { runningNode h with rest := ⟨⟨60, priority, 0⟩, ()⟩ }

/-- A chain of three, the first of which also needs the last. -/
def skipLevel : DerivationDag (Hinted Nat Unit) where
  nodes := ((Finmap.insert "a" (ranked "a" 180) ∅).insert "b" (ranked "b" 120)).insert "c"
    (ranked "c" 60)
  children := (Finmap.insert "a" {"b", "c"} ∅).insert "b" {"c"}
  parents := (Finmap.insert "b" {"a"} ∅).insert "c" {"a", "b"}
  pathToHash := ((Finmap.insert "/a" "a" ∅).insert "/b" "b").insert "/c" "c"

theorem edge_skipLevel :
    skipLevel.Edge p c ↔ p = "a" ∧ c = "b" ∨ p = "a" ∧ c = "c" ∨ p = "b" ∧ c = "c" := by
  simp only [Edge, skipLevel, Map.row_insert]
  split_ifs with hb ha <;> simp [*, Map.row]

theorem skipLevel_consistent : skipLevel.Mirrored ∧ skipLevel.Acyclic ∧
    skipLevel.Consistent (sweepFrom ["a", "b", "c"] (by decide)) := by
  refine ⟨fun p c => ?_, fun v hv => ?_, consistent_of_keys (by decide +kernel)⟩
  · refine Iff.trans ?_ edge_skipLevel.symm
    simp only [skipLevel, Map.row_insert]
    split_ifs with hc hb <;> simp [*, Map.row]
  · have hlt (p c : DrvHash) (he : skipLevel.Edge p c) : p < c := by
      obtain ⟨rfl, rfl⟩ | ⟨rfl, rfl⟩ | ⟨rfl, rfl⟩ := edge_skipLevel.mp he <;> decide
    have hl : TransGen (· < ·) v v := hv.lift id hlt
    rw [transGen_eq_self] at hl
    exact lt_irrefl v hl

theorem updateAncestors_consistent_skipLevel :
    ∃ dag', (skipLevel.setStatus "c" .completed).updateAncestors
        (sweepFrom ["a", "b", "c"] (by decide)) "c" = some dag' ∧
      dag'.Consistent (sweepFrom ["a", "b", "c"] (by decide)) ∧
      (dag'.nodes.lookup "a").map reading = some (.running, 60, 120) ∧
      (dag'.nodes.lookup "b").map reading = some (.running, 60, 60) := by
  obtain ⟨hd, hac, hc⟩ := skipLevel_consistent
  obtain ⟨dag', hr, hag, -⟩ :=
    (updateAncestors_consistent hd hac hc).1 "c" .completed rfl
  have hn : ((skipLevel.setStatus "c" .completed).updateAncestors
      (sweepFrom ["a", "b", "c"] (by decide)) "c").map (fun dag =>
        ((dag.nodes.lookup "a").map reading, (dag.nodes.lookup "b").map reading)) =
      some (some (.running, 60, 120), some (.running, 60, 60)) := by decide +kernel
  rw [hr, Option.map_some, Option.some.injEq, Prod.mk.injEq] at hn
  exact ⟨dag', hr, hag, hn⟩

def withEdge (parent child : DrvHash) (hashes : List DrvHash) : Submission Unit where
  buildId := 1
  nodes := hashes.map fun h => ⟨"/" ++ h, h, [], [], ()⟩
  edges := [⟨"/" ++ parent, "/" ++ child⟩]
  traceparent := ""

def insertedBy {ε : Type*} {ρ : Type*} : Except (DagError ε) (MergeResult ρ) →
    Finset DrvHash × List (DrvHash × DrvHash)
  | .ok log => (log.newlyInserted, log.newEdges)
  | .error _ => (∅, [])

theorem computeInitial_consistent_iff_newRoot :
    ∃ dag₁ log dag', twoRunning.merge hintedParsers (iterFrom ["a", "b", "r"])
        (withEdge "r" "a" ["r", "a"]) = (dag₁, .ok log) ∧
      dag₁.computeInitial (sweepFrom ["a", "b", "r"] (by decide)) flatSla log.newlyInserted =
        some dag' ∧ dag'.Consistent (sweepFrom ["a", "b", "r"] (by decide)) := by
  obtain ⟨log, hl⟩ := exists_of_isAccepted (r := twoRunning.merge hintedParsers
    (iterFrom ["a", "b", "r"]) (withEdge "r" "a" ["r", "a"])) (by decide +kernel)
  have hi : insertedBy (twoRunning.merge hintedParsers (iterFrom ["a", "b", "r"])
      (withEdge "r" "a" ["r", "a"])).2 = ({"r"}, [("r", "a")]) := by decide +kernel
  rw [hl] at hi
  obtain ⟨hns, he⟩ := Prod.mk.inj hi
  obtain ⟨hd, hac, hc⟩ := twoRunning_consistent
  obtain ⟨dag', hr, hif, -⟩ := computeInitial_consistent_iff hd hac hc hl flatSla
  refine ⟨_, log, dag', hl, hr, hif.mpr fun p c hn hp => ?_⟩
  rw [he, mem_singleton] at hn
  cases hn
  simp [hns] at hp

/-- An edge between two nodes that were there is not followed. -/
theorem computeInitial_skips_oldEdge : twoRunning.Mirrored ∧ twoRunning.Acyclic ∧
      twoRunning.Consistent (sweepFrom ["a", "b", "r"] (by decide)) ∧
      ∃ dag₁ log dag', twoRunning.merge hintedParsers (iterFrom ["a", "b"])
          (withEdge "a" "b" ["a", "b"]) = (dag₁, .ok log) ∧
        dag₁.computeInitial (sweepFrom ["a", "b", "r"] (by decide)) flatSla log.newlyInserted =
          some dag' ∧ ¬dag'.Consistent (sweepFrom ["a", "b", "r"] (by decide)) := by
  obtain ⟨hd, hac, hc⟩ := twoRunning_consistent
  refine ⟨hd, hac, hc, ?_⟩
  obtain ⟨log, hl⟩ := exists_of_isAccepted (r := twoRunning.merge hintedParsers
    (iterFrom ["a", "b"]) (withEdge "a" "b" ["a", "b"])) (by decide +kernel)
  have hi : insertedBy (twoRunning.merge hintedParsers (iterFrom ["a", "b"])
      (withEdge "a" "b" ["a", "b"])).2 = (∅, [("a", "b")]) := by decide +kernel
  rw [hl] at hi
  refine ⟨_, log, _, hl, if_pos (Prod.mk.inj hi).1, fun hco => ?_⟩
  have hm : (twoRunning.merge hintedParsers (iterFrom ["a", "b"])
      (withEdge "a" "b" ["a", "b"])).1.nonterminalChildMax
        (sweepFrom ["a", "b", "r"] (by decide)) "a" = 60 := by decide +kernel
  have hn : ((twoRunning.merge hintedParsers (iterFrom ["a", "b"])
      (withEdge "a" "b" ["a", "b"])).1.nodes.lookup "a").map reading =
        some (.running, 60, 60) := by decide +kernel
  obtain ⟨s, hs, heq⟩ := Option.map_eq_some_iff.mp hn
  have hp := hco "a" s hs (by rw [(Prod.mk.inj heq).1]; rfl)
  simp only [reading, Prod.mk.injEq] at heq
  omega

end DerivationDag

end RioBuild.Dag
