import RioBuild.Dag.Acyclic
import RioBuild.Dag.CriticalPath

namespace RioBuild.Dag

open Lib Relation List

namespace DerivationDag

section Topo

variable {dag : DerivationDag ρ}

def Mirrored (dag : DerivationDag ρ) : Prop :=
  ∀ p c, p ∈ dag.parents.row c ↔ c ∈ dag.children.row p

def SameGraph (dag dag' : DerivationDag ρ) : Prop :=
  dag'.children = dag.children ∧ dag'.parents = dag.parents

section

variable (hsame : SameGraph dag dag')
include hsame

theorem SameGraph.edge : dag'.Edge = dag.Edge := by
  funext p c
  rw [Edge, Edge, hsame.1]

theorem SameGraph.mirrored (hd : dag.Mirrored) : dag'.Mirrored := by
  intro p c
  rw [hsame.1, hsame.2]
  exact hd p c

theorem SameGraph.acyclic (hd : dag.Acyclic) : dag'.Acyclic :=
  hd.mono fun p c hp => by rwa [← hsame.edge]

end

def setStatus (h : DrvHash) (status : DerivationStatus) (dag : DerivationDag ρ) :
    DerivationDag ρ :=
  dag.modifyNode h fun s => { s with status }

theorem mem_getParents : p ∈ dag.getParents order h ↔ p ∈ dag.parents.row h :=
  ((order.parents h).2 _).2 p

theorem mem_getChildren : c ∈ dag.getChildren order h ↔ c ∈ dag.children.row h :=
  ((order.children h).2 _).2 c

theorem kahnTopo_eq (order : SweepOrder) (hd : dag.Mirrored) (ha : dag.Acyclic)
    (call : Option DrvHash) (scope : Finset DrvHash) :
    ∃ l, dag.kahnTopo order call scope = some l ∧ l.Nodup ∧ (∀ h, h ∈ l ↔ h ∈ scope) ∧
      l.Pairwise fun a b => b ∉ dag.children.row a := by
  obtain ⟨hn, hm⟩ := (order.degrees call).2 scope
  have hs : ((order.degrees call).1 scope).toFinset = scope := by
    ext h
    rw [mem_toFinset, hm]
  have hdg : ∀ h, ((dag.children.row h).filter (· ∈ scope)).card =
      (dag.children.row h ∩ ((order.degrees call).1 scope).toFinset).card := fun h => by
    rw [hs, Finset.filter_mem_eq_inter]
  obtain ⟨l, hl, hln, hlm, hso⟩ := Kahn.sort_eq dag.children.row (dag.getParents order)
    hn hdg (fun h => ((order.parents h).2 _).1)
    (fun c p => mem_getParents.trans (hd p c)) ha
  exact ⟨l, hl, hln, fun h => (hlm h).trans (hm h), hso⟩

theorem mem_parents_union (hp : p ∈ dag.parents.row h) :
    p ∈ dag.parents.keys.biUnion dag.parents.row := by
  refine Finset.mem_biUnion.mpr ⟨h, ?_, hp⟩
  refine Finmap.mem_keys.mpr (Finmap.mem_iff.mpr (Option.isSome_iff_exists.mp ?_))
  rw [Map.row] at hp
  cases hs : dag.parents.lookup h with
  | none => simp [hs] at hp
  | some s => rfl

theorem ancestorCone_eq (hd : dag.Mirrored) (order : SweepOrder) (start : DrvHash) :
    ∃ cone, dag.ancestorCone order start = some cone ∧
      ∀ h, h ∈ cone ↔ TransGen dag.Edge h start := by
  have hb : Search.Collecting (dag.getParents order) {p | p ∈ dag.parents.row start} ∅
      (dag.getParents order start) := by
    refine ⟨fun p hp => .inr (mem_getParents.mpr hp), fun p hp => ?_, fun p hp => ?_⟩
    · rcases hp with hp | hp
      · exact absurd hp (Finset.notMem_empty p)
      · exact ⟨p, mem_getParents.mp hp, .refl⟩
    · exact absurd hp (Finset.notMem_empty p)
  have ha : ∀ h, ∀ p ∈ dag.getParents order h, p ∈ dag.parents.keys.biUnion dag.parents.row :=
    fun h p hp => mem_parents_union (mem_getParents.mp hp)
  obtain ⟨cone, hc, hm⟩ := hb.collect (ha start) ha (le_of_eq (by rw [Finset.sdiff_empty]))
  have hs : (fun x y => y ∈ dag.getParents order x) = Function.swap dag.Edge := by
    funext c p
    rw [mem_getParents, hd p c]
    rfl
  refine ⟨cone, hc, fun h => ?_⟩
  rw [hm, hs, TransGen.tail'_iff]
  refine exists_congr fun p => ?_
  rw [reflTransGen_swap, and_comm]
  exact and_congr_right fun _ => hd p start

end Topo

section Priorities

variable {τ ρ : Type*} [AddCommMonoid τ] [LinearOrder τ] {order : SweepOrder}
  {dag dag' : DerivationDag (Hinted τ ρ)} {scope : Finset DrvHash} {h c : DrvHash}

def live (dag : DerivationDag (Hinted τ ρ)) (h : DrvHash) : Option τ :=
  (dag.nodes.lookup h).bind DerivationState.livePriority

def Settled (order : SweepOrder) (dag : DerivationDag (Hinted τ ρ)) (h : DrvHash) : Prop :=
  ∀ s, dag.nodes.lookup h = some s → s.status.isTerminal = false →
    s.sched.priority = s.sched.estDuration + dag.nonterminalChildMax order h

def Consistent (order : SweepOrder) (dag : DerivationDag (Hinted τ ρ)) : Prop :=
  ∀ h, dag.Settled order h

theorem consistent_of_keys
    (hk : ∀ h ∈ dag.nodes.keys, ∀ s ∈ dag.nodes.lookup h, s.status.isTerminal = false →
      s.sched.priority = s.sched.estDuration + dag.nonterminalChildMax order h) :
    dag.Consistent order := by
  intro h s hs
  exact hk h (Finmap.mem_keys.mpr (Finmap.mem_of_lookup_eq_some hs)) s hs

theorem nonterminalChildMax_congr (hrw : dag'.children.row h = dag.children.row h)
    (hl : ∀ c ∈ dag.children.row h, dag'.live c = dag.live c) :
    dag'.nonterminalChildMax order h = dag.nonterminalChildMax order h := by
  have hch : dag'.getChildren order h = dag.getChildren order h := by
    rw [getChildren, getChildren, hrw]
  rw [nonterminalChildMax, hch]
  congr 1
  exact filterMap_congr fun c hc => hl c (mem_getChildren.mp hc)

omit [AddCommMonoid τ] [LinearOrder τ] in
theorem live_of_lookup (hl : dag'.nodes.lookup h = dag.nodes.lookup h) :
    dag'.live h = dag.live h := by
  rw [live, live, hl]

theorem lookup_recompute :
    (dag.recompute order h).nodes.lookup c = if c = h then (dag.nodes.lookup c).map
      fun s => s.setPriority (s.sched.estDuration + dag.nonterminalChildMax order h)
    else dag.nodes.lookup c :=
  Map.lookup_modify

structure Recomputed (order : SweepOrder) (scope : Finset DrvHash)
    (dag dag' : DerivationDag (Hinted τ ρ)) : Prop where
  graph : SameGraph dag dag'
  kept : ∀ h ∉ scope, dag'.nodes.lookup h = dag.nodes.lookup h
  renewed : ∀ h ∈ scope, dag'.nodes.lookup h = (dag.nodes.lookup h).map
    fun s => s.setPriority (s.sched.estDuration + dag'.nonterminalChildMax order h)

theorem recomputed_foldl (ha : dag.Acyclic) {l : List DrvHash} (hn : l.Nodup)
    (hs : l.Pairwise fun a b => b ∉ dag.children.row a) :
    Recomputed order l.toFinset dag (l.foldl (recompute order) dag) := by
  induction l generalizing dag with
  | nil => exact ⟨⟨rfl, rfl⟩, fun _ _ => rfl, fun h hh => absurd hh (Finset.notMem_empty h)⟩
  | cons p l ih =>
    obtain ⟨hp, hn⟩ := nodup_cons.mp hn
    obtain ⟨hl, hs⟩ := pairwise_cons.mp hs
    have hf : SameGraph dag (dag.recompute order p) := ⟨rfl, rfl⟩
    have hre := ih (hf.acyclic ha) hn hs
    refine ⟨⟨hre.graph.1, hre.graph.2⟩, fun h hh => ?_, fun h hh => ?_⟩
    · rw [toFinset_cons, Finset.mem_insert, not_or] at hh
      rw [foldl_cons, hre.kept h hh.2, lookup_recompute, if_neg hh.1]
    · rw [toFinset_cons, Finset.mem_insert, mem_toFinset] at hh
      by_cases hhp : h = p
      · subst hhp
        -- no child of `h` is `h` or comes later
        have hm : (l.foldl (recompute order) (dag.recompute order h)).nonterminalChildMax order h
            = dag.nonterminalChildMax order h := by
          refine nonterminalChildMax_congr (by rw [hre.graph.1]; rfl) fun c hc => ?_
          have hc' : c ∉ l.toFinset := fun hme => hl c (mem_toFinset.mp hme) hc
          have hne : c ≠ h := fun heq => ha h (.single (heq ▸ hc))
          refine live_of_lookup ?_
          rw [hre.kept c hc', lookup_recompute, if_neg hne]
        rw [foldl_cons, hre.kept h (by rwa [mem_toFinset]), lookup_recompute, if_pos rfl, hm]
      · rw [foldl_cons, hre.renewed h (mem_toFinset.mpr (hh.resolve_left hhp)),
          lookup_recompute, if_neg hhp]

theorem topoRecompute_eq (hd : dag.Mirrored) (ha : dag.Acyclic) (order : SweepOrder)
    (call : Option DrvHash) (scope : Finset DrvHash) :
    ∃ dag', dag.topoRecompute order call scope = some dag' ∧ Recomputed order scope dag dag' := by
  obtain ⟨l, hl, hn, hm, hs⟩ := kahnTopo_eq order hd ha call scope
  have hsc : l.toFinset = scope := by
    ext h
    rw [mem_toFinset, hm]
  refine ⟨l.foldl (recompute order) dag, ?_, hsc ▸ recomputed_foldl ha hn hs⟩
  rw [topoRecompute, hl]
  rfl

namespace Recomputed

section

variable (hr : Recomputed order scope dag dag')
include hr

theorem settled (hh : h ∈ scope) : dag'.Settled order h := by
  intro s hs _
  rw [hr.renewed h hh] at hs
  obtain ⟨s', -, rfl⟩ := Option.map_eq_some_iff.mp hs
  rfl

theorem live_eq (hh : h ∉ scope) : dag'.live h = dag.live h :=
  live_of_lookup (hr.kept h hh)

theorem settled_iff (hh : h ∉ scope) (hb : ∀ c ∈ dag.children.row h, c ∉ scope) :
    dag'.Settled order h ↔ dag.Settled order h := by
  have hm : dag'.nonterminalChildMax order h = dag.nonterminalChildMax order h :=
    nonterminalChildMax_congr (by rw [hr.graph.1]) fun c hc => hr.live_eq (hb c hc)
  rw [Settled, Settled, hr.kept h hh, hm]

end

end Recomputed

theorem updateAncestors_eq (hd : dag.Mirrored) (ha : dag.Acyclic) (order : SweepOrder)
    (start : DrvHash) :
    ∃ cone dag', dag.updateAncestors order start = some dag' ∧ Recomputed order cone dag dag' ∧
      ∀ h, h ∈ cone ↔ TransGen dag.Edge h start := by
  obtain ⟨cone, hc, hm⟩ := ancestorCone_eq hd order start
  obtain ⟨dag', hd', hr⟩ := topoRecompute_eq hd ha order (some start) cone
  refine ⟨cone, dag', ?_, hr, hm⟩
  rw [updateAncestors, hc]
  exact hd'

end Priorities

end DerivationDag

end RioBuild.Dag
