import RioBuild.Gateway.Reconstruct

universe u

namespace RioBuild.Gateway

open Lib Dag Search List

variable {δ ν : Type u} {ε : Type*} {r : Resolver δ ν ε} {cap : Nat} {cache : DrvCache δ}
  {g : String → Option (Derivation δ)} {p c o : String} {drv : Derivation δ}

def OutputSpec.nameList : OutputSpec → List String
  | .all => []
  | .names ns _ => ns

/-- A finite set of derivations that the resolver and the cache know, with their inputs; every
input names an output. -/
structure KnownGraph (r : Resolver δ ν ε) (g : String → Option (Derivation δ))
    (graph : Finset String) : Prop where
  resolves : ∀ p ∈ graph, ∃ drv, g p = some drv
  parses : ∀ p ∈ graph, r.parsePath p = none
  closed : ∀ p ∈ graph, ∀ c, Input g p c → c ∈ graph
  names : ∀ p ∈ graph, ∀ drv, g p = some drv → ∀ x ∈ drv.inputDrvs, x.2.Nonempty

theorem KnownGraph.reachable {roots : List String} (h : KnownGraph r g graph)
    (hrt : ∀ root ∈ roots, root ∈ graph) (hp : Reachable g roots p) : p ∈ graph := by
  obtain ⟨root, hr, hre⟩ := hp
  induction hre with
  | refl => exact hrt root hr
  | tail _ hs ih => exact h.closed _ ih _ hs

def AllWanted (targets : List Target) (p : String) : Prop :=
  ∃ t ∈ targets, t.drv = p ∧ t.outputs = .all

def Wanted (g : String → Option (Derivation δ)) (targets : List Target) (p o : String) : Prop :=
  (∃ t ∈ targets, t.drv = p ∧ o ∈ t.outputs.nameList) ∨
    ∃ c drv names, Reachable g (targets.map Target.drv) c ∧ g c = some drv ∧
      (p, names) ∈ drv.inputDrvs ∧ o ∈ names

def graphNode (r : Resolver δ ν ε) (g : String → Option (Derivation δ)) (p : String)
    (drv : Derivation δ) : Node ν :=
  let node := buildNode r p drv
  { node with
    rest := { node.rest with
      needsResolve := drv.hasCaFloatingOutputs ||
        drv.inputPaths.any fun c => (g c).any Derivation.hasUnknownOutputPaths } }

def bare (n : Node ν) : Node ν :=
  { n with wantedOutputNames := [], rest := { n.rest with explicitlyRequested := false } }

structure Demanded (r : Resolver δ ν ε) (g : String → Option (Derivation δ))
    (targets : List Target) (n : Node ν) : Prop where
  node : ∃ drv, g n.drvPath = some drv ∧ bare n = graphNode r g n.drvPath drv
  requested : n.rest.explicitlyRequested = true ↔ n.drvPath ∈ targets.map Target.drv
  all : AllWanted targets n.drvPath → n.wantedOutputNames = []
  names : ¬AllWanted targets n.drvPath → n.wantedOutputNames ≠ [] ∧
    n.wantedOutputNames.Pairwise (· < ·) ∧
    ∀ o, o ∈ n.wantedOutputNames ↔ Wanted g targets n.drvPath o

structure Cached (r : Resolver δ ν ε) (g : String → Option (Derivation δ)) (cache : DrvCache δ)
    (closure : Finset String) : Prop where
  lookup : ∀ p ∈ closure, cache.lookup p = g p
  parses : ∀ p ∈ closure, r.parsePath p = none
  closed : ∀ p ∈ closure, ∀ c, Input g p c → c ∈ closure

section Cached

variable {closure : Finset String}

section

variable (h : Cached r g cache closure)
include h

theorem Cached.isDeferred_eq (hp : p ∈ closure) (hd : g p = some drv) : isDeferred r cache drv =
    drv.inputPaths.any fun c => (g c).any Derivation.hasUnknownOutputPaths := by
  rw [isDeferred, Bool.eq_iff_iff, any_eq_true, any_eq_true]
  refine exists_congr fun c => and_congr_right fun hc => ?_
  have hm := h.closed p hp c ⟨drv, hd, hc⟩
  rw [h.parses c hm, h.lookup c hm]

variable {done : List (String × Derivation δ)}

theorem Cached.iterCachedDrvs_eq (hf : ∀ x, (f x).drvPath = x.1)
    (hd : ∀ x ∈ done, x.1 ∈ closure ∧ g x.1 = some x.2) :
    iterCachedDrvs r (done.map f) cache = done.map fun x => (f x, x.2) := by
  rw [iterCachedDrvs, filterMap_map, ← filterMap_eq_map]
  refine filterMap_congr fun x hx => ?_
  obtain ⟨hm, hk⟩ := hd x hx
  rw [Function.comp_apply, hf, h.parses _ hm, h.lookup _ hm, hk]
  rfl

theorem Cached.populateNeedsResolve_eq (hd : ∀ x ∈ done, x.1 ∈ closure ∧ g x.1 = some x.2) :
    populateNeedsResolve r cache (done.map fun x => buildNode r x.1 x.2) =
      done.map fun x => graphNode r g x.1 x.2 := by
  rw [populateNeedsResolve, map_map]
  refine map_congr_left fun x hx => ?_
  have hx' : ∀ y ∈ [x], y.1 ∈ closure ∧ g y.1 = some y.2 := by simpa using hd x hx
  have hi : iterCachedDrvs r [buildNode r x.1 x.2] cache = [(buildNode r x.1 x.2, x.2)] :=
    h.iterCachedDrvs_eq (f := fun x => buildNode r x.1 x.2) (fun _ => rfl) hx'
  rw [Function.comp_apply, hi]
  dsimp only
  rw [h.isDeferred_eq (hd x hx).1 (hd x hx).2, graphNode, buildNode]
  cases x.2.hasCaFloatingOutputs with
  | true => rfl
  | false =>
    cases x.2.inputPaths.any fun c => (g c).any Derivation.hasUnknownOutputPaths with
    | true | false => rfl

end

variable {l : List (String × Finset String)}

theorem mem_row_wants : o ∈ (l.foldl want wanted).row p ↔
    o ∈ wanted.row p ∨ ∃ names, (p, names) ∈ l ∧ o ∈ names := by
  induction l generalizing wanted with
  | nil => simp
  | cons x l ih =>
    obtain ⟨q, s⟩ := x
    rw [foldl_cons, ih, want, Map.row_insert]
    by_cases hp : p = q
    · subst hp
      simp [or_assoc]
    · simp [hp]

theorem lookup_wants (h : p ∈ l.map Prod.fst ∨ wanted.lookup p = some (wanted.row p)) :
    (l.foldl want wanted).lookup p = some ((l.foldl want wanted).row p) := by
  induction l generalizing wanted with
  | nil => simpa using h
  | cons x l ih =>
    refine ih ?_
    by_cases hp : p = x.1
    · subst hp
      rw [want, Map.row_insert, if_pos rfl, Finmap.lookup_insert]
      exact .inr rfl
    · rw [want, Map.row_insert]
      simpa [hp] using h

theorem Cached.consumerWants_eq (h : Cached r g cache closure)
    {done : List (String × Derivation δ)} (hf : ∀ x, (f x).drvPath = x.1)
    (hd : ∀ x ∈ done, x.1 ∈ closure ∧ g x.1 = some x.2) : consumerWants r cache (done.map f) =
      (done.flatMap fun x => x.2.inputDrvs).foldl want ∅ := by
  rw [consumerWants, h.iterCachedDrvs_eq hf hd, foldl_map, foldl_flatMap]

section Apply

variable {all : Bool} {root : String} {n : Node ν}

@[simp] theorem markRequested_drvPath : (markRequested root n).drvPath = n.drvPath := by
  unfold markRequested
  split <;> rfl

@[simp] theorem bare_markRequested : bare (markRequested root n) = bare n := by
  unfold markRequested
  split <;> rfl

theorem explicitlyRequested_markRequested (hn : n.rest.explicitlyRequested = false) :
    (markRequested root n).rest.explicitlyRequested = true ↔ n.drvPath = root := by
  unfold markRequested
  split <;> simp [*]

@[simp] theorem applyDemand_drvPath : (applyDemand wanted all root n).drvPath = n.drvPath := by
  unfold applyDemand
  split
  · rfl
  · split <;> rfl

@[simp] theorem bare_applyDemand : bare (applyDemand wanted all root n) = bare n := by
  unfold applyDemand
  split
  · rfl
  · split <;> rfl

@[simp] theorem explicitlyRequested_applyDemand :
    (applyDemand wanted all root n).rest.explicitlyRequested = n.rest.explicitlyRequested := by
  unfold applyDemand
  split
  · rfl
  · split <;> rfl

theorem wantedOutputNames_applyDemand (hn : ¬(all = true ∧ n.drvPath = root))
    (hna : wanted.lookup n.drvPath = some names) :
    (applyDemand wanted all root n).wantedOutputNames = names.sort := by
  rw [applyDemand, if_neg hn, hna]

end Apply

def rootEntries (t : Target) : List (String × Finset String) :=
  match t.outputs with
  | .all => []
  | .names names _ => [(t.drv, names.toFinset)]

theorem rootWants_eq : rootWants wanted t.drv (some t.outputs) =
    ((rootEntries t).foldl want wanted, decide (t.outputs = .all)) := by
  unfold rootEntries
  cases t.outputs with
  | all | names names hne => rfl

theorem lookup_wants_sort (hp : p ∈ l.map Prod.fst) (hne : ∀ x ∈ l, x.2.Nonempty) :
    ∃ names, (l.foldl want ∅).lookup p = some names ∧ names.sort ≠ [] ∧
      names.sort.Pairwise (· < ·) ∧ ∀ o, o ∈ names.sort ↔ ∃ names, (p, names) ∈ l ∧ o ∈ names := by
  have hm o : o ∈ ((l.foldl want ∅).row p).sort ↔ ∃ names, (p, names) ∈ l ∧ o ∈ names := by
    rw [Finset.mem_sort, mem_row_wants]
    simp [Map.row]
  refine ⟨_, lookup_wants (.inl hp), ?_, (Finset.sortedLT_sort _).pairwise, hm⟩
  obtain ⟨⟨q, s⟩, hx, rfl⟩ := mem_map.mp hp
  obtain ⟨o, ho⟩ := hne _ hx
  exact ne_nil_of_mem ((hm o).mpr ⟨s, hx, ho⟩)

structure Expanded (g : String → Option (Derivation δ)) (root : String) (closure : Finset String)
    (done : List (String × Derivation δ)) : Prop where
  mem_iff : ∀ p, p ∈ closure ↔ Reachable g [root] p
  knows : ∀ x ∈ done, x.1 ∈ closure ∧ g x.1 = some x.2
  covers : ∀ p ∈ closure, p ∈ done.map Prod.fst
  names : ∀ x ∈ done, ∀ y ∈ x.2.inputDrvs, y.2.Nonempty

def entries (t : Target) (done : List (String × Derivation δ)) : List (String × Finset String) :=
  (done.flatMap fun x => x.2.inputDrvs) ++ rootEntries t

namespace Expanded

variable {t : Target} {done : List (String × Derivation δ)} {names : Finset String}

section

variable (h : Expanded g t.drv closure done)
include h

theorem mem_inputs (x : String × Finset String) : x ∈ (done.flatMap fun x => x.2.inputDrvs) ↔
    ∃ c drv, Reachable g [t.drv] c ∧ g c = some drv ∧ x ∈ drv.inputDrvs := by
  rw [mem_flatMap]
  constructor
  · rintro ⟨y, hy, hx⟩
    obtain ⟨hm, hd⟩ := h.knows y hy
    exact ⟨y.1, y.2, (h.mem_iff _).mp hm, hd, hx⟩
  · rintro ⟨c, drv, hc, hd, hx⟩
    obtain ⟨y, hy, rfl⟩ := mem_map.mp (h.covers c ((h.mem_iff c).mpr hc))
    rw [(h.knows y hy).2] at hd
    exact ⟨y, hy, Option.some.inj hd ▸ hx⟩

theorem wanted_iff : Wanted g [t] p o ↔ ∃ names, (p, names) ∈ entries t done ∧ o ∈ names := by
  have hr : (∃ t' ∈ [t], t'.drv = p ∧ o ∈ t'.outputs.nameList) ↔
      ∃ names, (p, names) ∈ rootEntries t ∧ o ∈ names := by
    unfold rootEntries
    cases hs : t.outputs with
    | all => simp [hs, OutputSpec.nameList]
    | names ns hne => simp [hs, OutputSpec.nameList, eq_comm]
  rw [Wanted, hr]
  simp only [entries, mem_append, h.mem_inputs, or_and_right, exists_or]
  rw [or_comm]
  refine or_congr_left ?_
  constructor
  · rintro ⟨c, drv, names, hc, hd, hp, ho⟩
    exact ⟨names, ⟨c, drv, hc, hd, hp⟩, ho⟩
  · rintro ⟨names, ⟨c, drv, hc, hd, hp⟩, ho⟩
    exact ⟨c, drv, names, hc, hd, hp, ho⟩

theorem nonempty_of_mem_entries (x : String × Finset String)
    (hx : x ∈ entries t done) : x.2.Nonempty := by
  rcases mem_append.mp hx with hx | hx
  · obtain ⟨y, hy, hx⟩ := mem_flatMap.mp hx
    exact h.names y hy x hx
  · unfold rootEntries at hx
    cases hs : t.outputs with
    | all => simp [hs] at hx
    | names ns hne =>
      simp only [hs, mem_singleton] at hx
      rw [hx]
      exact toFinset_nonempty_iff _ |>.mpr hne

theorem mem_entries (hp : p ∈ closure)
    (ha : ¬AllWanted [t] p) : p ∈ (entries t done).map Prod.fst := by
  rw [entries, map_append, mem_append]
  obtain ⟨root, hro, hr⟩ := (h.mem_iff p).mp hp
  rw [mem_singleton.mp hro] at hr
  rcases hr.cases_tail with heq | ⟨c, hc, drv, hd, hm⟩
  · subst heq
    right
    unfold rootEntries
    cases hs : t.outputs with
    | all => exact absurd ⟨t, mem_singleton_self t, rfl, hs⟩ ha
    | names ns hne => simp
  · left
    obtain ⟨x, hx, rfl⟩ := mem_map.mp hm
    exact mem_map_of_mem ((h.mem_inputs x).mpr ⟨c, drv, ⟨t.drv, mem_singleton_self _, hc⟩, hd, hx⟩)

theorem demanded (hx : x ∈ done) :
    Demanded r g [t] (applyDemand ((entries t done).foldl want ∅) (decide (t.outputs = .all)) t.drv
      (markRequested t.drv (graphNode r g x.1 x.2))) := by
  have hp : (graphNode r g x.1 x.2).drvPath = x.1 := rfl
  have ha : AllWanted [t] x.1 ↔ t.outputs = .all ∧ x.1 = t.drv := by
    simp [AllWanted, eq_comm, and_comm]
  obtain ⟨hm, hd⟩ := h.knows x hx
  refine ⟨⟨x.2, ?_, ?_⟩, ?_, fun hw => ?_, fun hw => ?_⟩
  · simpa [hp] using hd
  · rw [bare_applyDemand, bare_markRequested, applyDemand_drvPath, markRequested_drvPath]
    rfl
  · rw [explicitlyRequested_applyDemand, explicitlyRequested_markRequested rfl]
    simp
  · rw [applyDemand_drvPath, markRequested_drvPath, hp, ha] at hw
    rw [applyDemand, if_pos]
    simpa [hp] using hw
  · rw [applyDemand_drvPath, markRequested_drvPath, hp] at hw ⊢
    obtain ⟨names, hl, hne, hs, hn⟩ :=
      lookup_wants_sort (h.mem_entries hm hw) h.nonempty_of_mem_entries
    rw [ha] at hw
    rw [← hp, ← markRequested_drvPath] at hl
    rw [wantedOutputNames_applyDemand (by simpa [hp] using hw) hl]
    exact ⟨hne, hs, fun o => (hn o).trans h.wanted_iff.symm⟩

end

end Expanded

end Cached

structure View (r : Resolver δ ν ε) (g : String → Option (Derivation δ)) (targets : List Target)
    (nodes : List (Node ν)) (edges : List DerivationEdge) : Prop where
  demanded : ∀ n ∈ nodes, ∃ t ∈ targets, Reachable g [t.drv] n.drvPath ∧ Demanded r g [t] n
  covers : ∀ t ∈ targets, ∀ p, Reachable g [t.drv] p →
    ∃ n ∈ nodes, n.drvPath = p ∧ Demanded r g [t] n
  mem_edges : ∀ e, e ∈ edges ↔
    Reachable g (targets.map Target.drv) e.parentDrvPath ∧ Input g e.parentDrvPath e.childDrvPath

section Reconstruct

variable {closure : Finset String} {root : String} {outputs : Option OutputSpec}

theorem reconstructDag_eq : reconstructDag r cap root drv outputs cache =
    (bfsLevels r cap cap 0 [(root, drv)] { visited := {root} } cache).map fun x =>
      ((populateWantedOutputs r x.2 root outputs (populateNeedsResolve r x.2 x.1.nodes),
        x.1.edges), x.2) := by
  rw [reconstructDag]
  cases bfsLevels r cap cap 0 [(root, drv)] { visited := {root} } cache with
  | error e | ok x => rfl

theorem exists_reconstructDag_ok_iff (hc : ∀ p, p ∈ closure ↔ Reachable (known r cache) [root] p)
    (hk : ∀ p ∈ closure, ∃ drv, known r cache p = some drv)
    (hp : ∀ p ∈ closure, r.parsePath p = none) (hroo : known r cache root = some drv) :
    (∃ res, reconstructDag r cap root drv outputs cache = .ok res) ↔ closure.card ≤ cap ∧
        (closure.erase root ⊆ cache.keys ∨ (cache.keys ∪ closure.erase root).card ≤ cap) := by
  have hf : Found r cap cache root closure _ := bfs_found hc hk hp hroo
  rw [reconstructDag_eq]
  generalize bfsLevels r cap cap 0 [(root, drv)] { visited := {root} } cache = res at hf ⊢
  cases hf with
  | found _ _ hl hr => exact iff_of_true ⟨_, rfl⟩ ⟨hl, hr⟩
  | overLimit ho => exact iff_of_false (fun ⟨_, heq⟩ => nomatch heq) fun h => by omega
  | cacheFull hm hfu =>
    refine iff_of_false (fun ⟨_, heq⟩ => nomatch heq) fun ⟨_, hr⟩ => ?_
    rcases hr with hs | hca
    · exact hm hs
    · omega

theorem Searching.expanded (h : Searching r g root done [] b) (hg : KnownGraph r g graph)
    (hc : ∀ p, p ∈ closure ↔ Reachable g [root] p) (hs : closure ⊆ graph) :
    Expanded g root closure done := by
  have hv := h.visited_eq hc
  rw [h.visited, append_nil] at hv
  have hm : ∀ x ∈ done, x.1 ∈ closure := fun x hx => by
    rw [← hv]
    exact mem_toFinset.mpr (mem_map_of_mem hx)
  have hk : ∀ x ∈ done, g x.1 = some x.2 := fun x hx => h.knows x (by simpa using hx)
  refine ⟨hc, fun x hx => ⟨hm x hx, hk x hx⟩, ?_, ?_⟩
  · intro p hp
    rw [← hv] at hp
    exact mem_toFinset.mp hp
  · exact fun x hx => hg.names x.1 (hs (hm x hx)) x.2 (hk x hx)

theorem Grown.cached (h : Grown r cache cache' (closure.erase root))
    (hg : KnownGraph r (known r cache) graph)
    (hc : ∀ p, p ∈ closure ↔ Reachable (known r cache) [root] p) (hsu : closure ⊆ graph)
    (hr : root ∈ cache.keys) : Cached r (known r cache) cache' closure where
  lookup p hp := by
    have hm : p ∈ cache'.keys := by
      rw [h.keys_eq, Finset.mem_union, Finset.mem_erase]
      by_cases hpr : p = root
      · exact .inl (hpr ▸ hr)
      · exact .inr ⟨hpr, hp⟩
    rw [lookup_eq_known hm, h.known_eq]
  parses p hp := hg.parses p (hsu hp)
  closed p hp c hst := by
    obtain ⟨s, hs, hre⟩ := (hc p).mp hp
    exact (hc c).mpr ⟨s, hs, hre.tail hst⟩

variable {t : Target}

theorem Expanded.populate_eq (h : Expanded g t.drv closure done)
    (hc : Cached r g cache closure) : populateWantedOutputs r cache t.drv (some t.outputs)
        (populateNeedsResolve r cache (done.map fun x => buildNode r x.1 x.2)) =
      done.map fun x => applyDemand ((entries t done).foldl want ∅) (decide (t.outputs = .all))
        t.drv (markRequested t.drv (graphNode r g x.1 x.2)) := by
  rw [hc.populateNeedsResolve_eq h.knows, populateWantedOutputs,
    hc.consumerWants_eq (fun _ => rfl) h.knows, rootWants_eq, ← foldl_append]
  exact map_map

theorem Expanded.mem_edges (h : Expanded g root closure done) : e ∈ done.flatMap edgesOf ↔
    Reachable g [root] e.parentDrvPath ∧ Input g e.parentDrvPath e.childDrvPath := by
  rw [mem_flatMap]
  constructor
  · rintro ⟨x, hx, he⟩
    obtain ⟨c, hc, rfl⟩ := mem_map.mp he
    obtain ⟨hm, hd⟩ := h.knows x hx
    exact ⟨(h.mem_iff _).mp hm, x.2, hd, hc⟩
  · rintro ⟨hr, drv, hd, hc⟩
    obtain ⟨x, hx, hp⟩ := mem_map.mp (h.covers _ ((h.mem_iff _).mpr hr))
    rw [← hp, (h.knows x hx).2] at hd
    refine ⟨x, hx, mem_map.mpr ⟨e.childDrvPath, Option.some.inj hd ▸ hc, ?_⟩⟩
    rw [hp]

theorem Expanded.view (h : Expanded g t.drv closure done) (hc : Cached r g cache closure) :
    View r g [t] (populateWantedOutputs r cache t.drv (some t.outputs)
      (populateNeedsResolve r cache (done.map fun x => buildNode r x.1 x.2)))
      (done.flatMap edgesOf) := by
  rw [h.populate_eq hc]
  refine ⟨?_, ?_, fun e => h.mem_edges⟩
  · intro n hn
    obtain ⟨x, hx, rfl⟩ := mem_map.mp hn
    refine ⟨t, mem_singleton_self t, ?_, h.demanded hx⟩
    rw [applyDemand_drvPath, markRequested_drvPath]
    exact (h.mem_iff _).mp (h.knows x hx).1
  · intro t' ht p hp
    rw [mem_singleton.mp ht] at hp ⊢
    obtain ⟨x, hx, rfl⟩ := mem_map.mp (h.covers p ((h.mem_iff p).mpr hp))
    refine ⟨_, mem_map_of_mem hx, ?_, h.demanded hx⟩
    rw [applyDemand_drvPath, markRequested_drvPath]
    rfl

theorem reconstructDag_view (hg : KnownGraph r (known r cache) graph)
    (hc : ∀ p, p ∈ closure ↔ Reachable (known r cache) [t.drv] p) (hs : closure ⊆ graph)
    (hca : cache.lookup t.drv = some drv) (hl : closure.card ≤ cap)
    (hr : (cache.keys ∪ closure.erase t.drv).card ≤ cap) : ∃ nodes edges cache',
      reconstructDag r cap t.drv drv (some t.outputs) cache = .ok ((nodes, edges), cache') ∧
      View r (known r cache) [t] nodes edges ∧ Grown r cache cache' (closure.erase t.drv) := by
  have hk : ∀ p ∈ closure, ∃ drv, known r cache p = some drv :=
    fun p hp => hg.resolves p (hs hp)
  have hpr : ∀ p ∈ closure, r.parsePath p = none := fun p hp => hg.parses p (hs hp)
  have hks : t.drv ∈ cache.keys := Finmap.mem_keys.mpr (Finmap.mem_of_lookup_eq_some hca)
  have hf : Found r cap cache t.drv closure _ :=
    bfs_found hc hk hpr (known_of_lookup hca)
  rw [reconstructDag_eq]
  generalize bfsLevels r cap cap 0 [(t.drv, drv)] { visited := {t.drv} } cache = res at hf ⊢
  cases hf with
  | found hse hgro _ _ =>
    refine ⟨_, _, _, rfl, ?_, hgro⟩
    rw [hse.nodes, hse.edges]
    exact (hse.expanded hg hc hs).view (hgro.cached hg hc hs hks)
  | overLimit ho | cacheFull hm hfu => omega

end Reconstruct

end RioBuild.Gateway
