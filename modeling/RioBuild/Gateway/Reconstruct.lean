import RioBuild.Gateway.Translate
import RioBuild.Lib.Search

universe u

namespace RioBuild.Gateway

open Lib Dag Search List

variable {δ ν : Type u} {ε : Type*} (r : Resolver δ ν ε) (cap : Nat)

def known (cache : DrvCache δ) (p : String) : Option (Derivation δ) :=
  (cache.lookup p).or (r.getPath p).toOption

def Input (g : String → Option (Derivation δ)) (p c : String) : Prop :=
  ∃ drv, g p = some drv ∧ c ∈ drv.inputPaths

def Reachable (g : String → Option (Derivation δ)) (roots : List String) (p : String) : Prop :=
  ∃ root ∈ roots, Relation.ReflTransGen (Input g) root p

variable {r cap} {cache cache' : DrvCache δ} {p : String} {drv : Derivation δ}

theorem known_of_lookup (h : cache.lookup p = some drv) : known r cache p = some drv := by
  rw [known, h]
  rfl

theorem lookup_eq_known (h : p ∈ cache.keys) : cache.lookup p = known r cache p := by
  obtain ⟨drv, hd⟩ := Finmap.mem_iff.mp (Finmap.mem_keys.mp h)
  rw [hd, known_of_lookup hd]

theorem lookup_eq_none_iff : cache.lookup p = none ↔ p ∉ cache.keys := by
  rw [Finmap.lookup_eq_none, Finmap.mem_keys]

theorem getPath_of_known (h : known r cache p = some drv) (hp : p ∉ cache.keys) :
    r.getPath p = .ok drv := by
  rw [known, lookup_eq_none_iff.mpr hp] at h
  cases hg : r.getPath p with
  | error source => simp [hg, Except.toOption] at h
  | ok d => simpa [hg, Except.toOption] using h

theorem keys_insert (x : String × Derivation δ) :
    (cache.insert x.1 x.2).keys = insert x.1 cache.keys := by
  ext p
  rw [Finmap.mem_keys, Finmap.mem_insert, Finset.mem_insert, Finmap.mem_keys]

structure Grown (r : Resolver δ ν ε) (cache cache' : DrvCache δ) (paths : Finset String) :
    Prop where
  keys_eq : cache'.keys = cache.keys ∪ paths
  known_eq : ∀ p, known r cache' p = known r cache p

theorem Grown.refl (h : paths ⊆ cache.keys) : Grown r cache cache paths where
  keys_eq := (Finset.union_eq_left.mpr h).symm
  known_eq _ := rfl

theorem Grown.trans (h₁ : Grown r cache cache₁ ps) (h₂ : Grown r cache₁ cache₂ qs) :
    Grown r cache cache₂ (ps ∪ qs) where
  keys_eq := by rw [h₂.keys_eq, h₁.keys_eq, Finset.union_assoc]
  known_eq p := (h₂.known_eq p).trans (h₁.known_eq p)

theorem Grown.insert {x : String × Derivation δ} (hx : known r cache x.1 = some x.2) :
    Grown r cache (cache.insert x.1 x.2) {x.1} where
  keys_eq := by
    rw [keys_insert, Finset.union_comm]
    rfl
  known_eq p := by
    by_cases hp : p = x.1
    · subst hp
      rw [hx, known_of_lookup (Finmap.lookup_insert _)]
    · rw [known, Finmap.lookup_insert_of_ne _ hp, known]

variable {paths : List String}

theorem fetchAll_ok (h : ∀ p ∈ paths, ∃ drv, r.getPath p = .ok drv) :
    ∃ fetched, fetchAll r paths = .ok fetched ∧ fetched.map Prod.fst = paths ∧
      ∀ x ∈ fetched, r.getPath x.1 = .ok x.2 := by
  induction paths with
  | nil => exact ⟨[], rfl, rfl, by simp⟩
  | cons p paths ih =>
    obtain ⟨drv, hd⟩ := h p mem_cons_self
    obtain ⟨fetched, hf, hp, hg⟩ := ih fun q hq => h q (mem_cons_of_mem _ hq)
    rw [fetchAll] at hf
    refine ⟨(p, drv) :: fetched, ?_, by rw [map_cons, hp], ?_⟩
    · rw [fetchAll, mapM_cons, hf, hd]
      rfl
    · rintro x (_ | ⟨_, hx⟩)
      · exact hd
      · exact hg x hx

theorem cacheAll_ok (hknown : ∀ x ∈ fetched, known r cache x.1 = some x.2)
    (hr : cache.keys.card + fetched.length ≤ cap) :
    ∃ cache', cacheAll (ε := ε) cap fetched cache = .ok cache' ∧
      Grown r cache cache' (fetched.map Prod.fst).toFinset := by
  induction fetched generalizing cache with
  | nil => exact ⟨cache, rfl, .refl (by simp)⟩
  | cons x fetched ih =>
    have hg := Grown.insert (hknown x mem_cons_self)
    rw [length_cons] at hr
    have hi : insertDrvBounded cap cache x.1 x.2 = some (cache.insert x.1 x.2) := by
      rw [insertDrvBounded, if_neg]
      omega
    have hcar : (cache.insert x.1 x.2).keys.card ≤ cache.keys.card + 1 := by
      rw [keys_insert]
      exact Finset.card_insert_le _ _
    obtain ⟨cache', hc', hg'⟩ := ih
      (fun y hy => (hg.known_eq _).trans (hknown y (mem_cons_of_mem _ hy))) (by omega)
    refine ⟨cache', ?_, ?_⟩
    · rw [cacheAll, foldlM_cons, hi]
      exact hc'
    · rw [map_cons, toFinset_cons]
      exact hg.trans hg'

inductive Batched (r : Resolver δ ν ε) (cap : Nat) (paths : List String) (cache : DrvCache δ) :
    Except (ResolveError ε) (List (String × Derivation δ) × DrvCache δ) → Prop
  | resolved {out cache'} (perm : (out.map Prod.fst).Perm paths)
    (known : ∀ x ∈ out, known r cache x.1 = some x.2)
    (grown : Grown r cache cache' paths.toFinset)
    (room : paths.toFinset ⊆ cache.keys ∨ (cache.keys ∪ paths.toFinset).card ≤ cap) :
    Batched r cap paths cache (.ok (out, cache'))
  | full {count} (missing : ¬paths.toFinset ⊆ cache.keys)
    (full : cap < (cache.keys ∪ paths.toFinset).card) :
    Batched r cap paths cache (.error (.drvCacheFull count cap))

theorem card_union_paths (hn : paths.Nodup) : (cache.keys ∪ paths.toFinset).card =
    cache.keys.card + (paths.filter (· ∉ cache.keys)).length := by
  rw [← Finset.union_sdiff_self_eq_union, Finset.card_union_of_disjoint Finset.disjoint_sdiff,
    ← toFinset_card_of_nodup (hn.filter _)]
  congr 2
  ext p
  simp

theorem resolved_perm : ((paths.filterMap fun p => (cache.lookup p).map (p, ·)).map Prod.fst) =
    paths.filter (· ∈ cache.keys) := by
  induction paths with
  | nil => rfl
  | cons p paths ih =>
    by_cases hp : p ∈ cache.keys
    · obtain ⟨drv, hd⟩ := Finmap.mem_iff.mp (Finmap.mem_keys.mp hp)
      simp [hd, hp, ih]
    · simp [lookup_eq_none_iff.mpr hp, hp, ih]

theorem batched (hnd : paths.Nodup) (hknown : ∀ p ∈ paths, ∃ drv, known r cache p = some drv) :
    Batched r cap paths cache (resolveDerivationsBatch r cap paths cache) := by
  have hc : (cache.keys ∪ paths.toFinset).card = _ := card_union_paths hnd
  have hmi : paths.filter (· ∉ cache.keys) = [] ↔ paths.toFinset ⊆ cache.keys := by
    simp [Finset.subset_iff]
  have hr : ∀ x ∈ paths.filterMap fun p => (cache.lookup p).map (p, ·),
      known r cache x.1 = some x.2 := by
    intro x hx
    obtain ⟨p, -, hp⟩ := mem_filterMap.mp hx
    obtain ⟨drv, hd, rfl⟩ := Option.map_eq_some_iff.mp hp
    exact known_of_lookup hd
  rw [resolveDerivationsBatch]
  split
  · rename_i hn
    have hs := hmi.mp hn
    refine .resolved ?_ hr (.refl hs) (.inl hs)
    rw [resolved_perm, filter_eq_self.mpr]
    exact fun p hp => decide_eq_true (hs (mem_toFinset.mpr hp))
  · rename_i hft
    split_ifs with hf
    · exact .full (fun hs => hft (hmi.mpr hs)) (hc ▸ hf)
    · have ha := r.arrival_perm (paths.filter (· ∉ cache.keys))
      have hge : ∀ p ∈ r.arrival (paths.filter (· ∉ cache.keys)), ∃ drv, r.getPath p = .ok drv := by
        intro p hp
        obtain ⟨hp, hk⟩ := mem_filter.mp (ha.mem_iff.mp hp)
        obtain ⟨drv, hd⟩ := hknown p hp
        exact ⟨drv, getPath_of_known hd (of_decide_eq_true hk)⟩
      obtain ⟨fetched, hfe, hps, hgo⟩ := fetchAll_ok hge
      have hfr : ∀ x ∈ fetched, known r cache x.1 = some x.2 := by
        intro x hx
        have hm := mem_map_of_mem (f := Prod.fst) hx
        rw [hps, ha.mem_iff, mem_filter] at hm
        rw [known, lookup_eq_none_iff.mpr (of_decide_eq_true hm.2), hgo x hx]
        rfl
      have hl : fetched.length = (paths.filter (· ∉ cache.keys)).length := by
        rw [← ha.length_eq, ← hps, length_map]
      obtain ⟨cache', hca', hg⟩ := cacheAll_ok hfr (Nat.le_of_not_lt (hl ▸ hf))
      have hse : cache.keys ∪ (fetched.map Prod.fst).toFinset = cache.keys ∪ paths.toFinset := by
        ext p
        rw [hps]
        simp only [Finset.mem_union, mem_toFinset, ha.mem_iff, mem_filter, decide_eq_true_eq]
        tauto
      rw [hfe]
      change Batched r cap paths cache (cacheAll cap fetched cache >>= _)
      rw [hca']
      refine .resolved ?_ ?_ ⟨hg.keys_eq.trans hse, hg.known_eq⟩ (.inr (by omega))
      · rw [map_append, resolved_perm, hps]
        refine (ha.append_left _).trans ?_
        simpa using filter_append_perm (· ∈ cache.keys) paths
      · intro x hx
        rcases mem_append.mp hx with hx | hx
        · exact hr x hx
        · exact hfr x hx

def edgesOf (x : String × Derivation δ) : List DerivationEdge := x.2.inputPaths.map (⟨x.1, ·⟩)

theorem visitInputs_eq {cs : List String} (hp : ∀ c ∈ cs, r.parsePath c = none) :
    cs.foldlM (visitInput r p) b = .ok
      { b with
        edges := b.edges ++ cs.map (⟨p, ·⟩)
        visited := b.visited ∪ cs.toFinset
        frontier := b.frontier ++ unseen b.visited cs } := by
  induction cs generalizing b with
  | nil =>
    simp [unseen]
    rfl
  | cons c cs ih =>
    obtain ⟨hc, hcs⟩ := forall_mem_cons.mp hp
    rw [foldlM_cons, visitInput, unseen]
    split_ifs with hs
    · change foldlM _ _ cs = _
      rw [ih hcs]
      simp [Finset.insert_eq_of_mem (Finset.mem_union_left _ hs)]
    · rw [hc]
      change foldlM _ _ cs = _
      rw [ih hcs]
      simp

def frontierOf (b : Bfs ν) (current : List (String × Derivation δ)) : List String :=
  unseen b.visited (current.flatMap fun x => x.2.inputPaths)

def expand (r : Resolver δ ν ε) (b : Bfs ν) (current : List (String × Derivation δ)) : Bfs ν where
  nodes := b.nodes ++ current.map fun x => buildNode r x.1 x.2
  edges := b.edges ++ current.flatMap edgesOf
  visited := b.visited ∪ (current.flatMap fun x => x.2.inputPaths).toFinset
  count := b.count + current.length
  frontier := b.frontier ++ frontierOf b current

theorem visitNodes_eq {current : List (String × Derivation δ)} (hc : b.count + current.length ≤ cap)
    (hp : ∀ x ∈ current, ∀ c ∈ x.2.inputPaths, r.parsePath c = none) :
    current.foldlM (visitNode r cap) b = .ok (expand r b current) := by
  induction current generalizing b with
  | nil =>
    simp [expand, frontierOf, unseen]
    rfl
  | cons x current ih =>
    obtain ⟨hx, hcu⟩ := forall_mem_cons.mp hp
    rw [length_cons] at hc
    rw [foldlM_cons, visitNode, if_neg (by dsimp only; omega), visitInputs_eq hx]
    change foldlM _ _ current = _
    rw [ih (by dsimp only; omega) hcu]
    simp [expand, frontierOf, edgesOf, unseen_append, add_assoc, add_comm 1]

/-- A search under way: `done` has been expanded, `current` is the level to come. -/
structure Searching (r : Resolver δ ν ε) (g : String → Option (Derivation δ)) (root : String)
    (done current : List (String × Derivation δ)) (b : Bfs ν) : Prop where
  nodes : b.nodes = done.map fun x => buildNode r x.1 x.2
  edges : b.edges = done.flatMap edgesOf
  count : b.count = done.length
  visited : b.visited = ((done ++ current).map Prod.fst).toFinset
  nodup : ((done ++ current).map Prod.fst).Nodup
  knows : ∀ x ∈ done ++ current, g x.1 = some x.2
  searched : Searched (Input g) {root} ↑b.visited {p | p ∈ done.map Prod.fst}

section Levels

variable {g : String → Option (Derivation δ)} {root : String} {closure : Finset String}
  {done current : List (String × Derivation δ)} {b : Bfs ν}

theorem disjoint_frontier : Disjoint b.visited (frontierOf b current).toFinset := by
  rw [Finset.disjoint_right]
  exact fun p hp => (mem_unseen.mp (mem_toFinset.mp hp)).2

theorem visited_expand :
    (expand r b current).visited = b.visited ∪ (frontierOf b current).toFinset := by
  ext p
  rw [expand, frontierOf, Finset.mem_union, Finset.mem_union, mem_toFinset,
    mem_toFinset, mem_unseen]
  tauto

theorem mem_inputs_iff (hknown : ∀ x ∈ current, g x.1 = some x.2) :
    p ∈ current.flatMap (fun x => x.2.inputPaths) ↔ ∃ q ∈ current.map Prod.fst, Input g q p := by
  rw [mem_flatMap]
  constructor
  · rintro ⟨x, hx, hp⟩
    exact ⟨x.1, mem_map_of_mem hx, x.2, hknown x hx, hp⟩
  · rintro ⟨q, hq, drv, hd, hp⟩
    obtain ⟨x, hx, rfl⟩ := mem_map.mp hq
    rw [hknown x hx] at hd
    exact ⟨x, hx, Option.some.inj hd ▸ hp⟩

theorem Searching.init (h : g root = some drv) :
    Searching r g root [] [(root, drv)] { visited := {root} } where
  nodes := rfl
  edges := rfl
  count := rfl
  visited := by simp
  nodup := by simp
  knows := by simpa using h
  searched := by
    refine ⟨by simp, ?_, by simp⟩
    intro p hp
    exact ⟨p, by simpa using hp, .refl⟩

namespace Searching

section

variable (h : Searching r g root done current b)
include h

theorem card_visited : b.visited.card = done.length + current.length := by
  rw [h.visited, toFinset_card_of_nodup h.nodup, length_map, length_append]

section

variable (hclosure : ∀ p, p ∈ closure ↔ Reachable g [root] p)
include hclosure

theorem visited_subset : b.visited ⊆ closure := by
  intro p hp
  obtain ⟨s, rfl, hr⟩ := h.searched.reached p hp
  exact (hclosure p).mpr ⟨s, mem_singleton_self s, hr⟩

theorem inputs_subset (hx : x ∈ current) (hp : p ∈ x.2.inputPaths) : p ∈ closure := by
  have hm := mem_append_right done hx
  have hse : x.1 ∈ b.visited := by
    rw [h.visited]
    exact mem_toFinset.mpr (mem_map_of_mem hm)
  obtain ⟨s, hs, hr⟩ := (hclosure _).mp (h.visited_subset hclosure hse)
  exact (hclosure p).mpr ⟨s, hs, hr.tail ⟨x.2, h.knows x hm, hp⟩⟩

theorem frontier_subset : (frontierOf b current).toFinset ⊆ closure := by
  intro p hp
  rw [frontierOf, mem_toFinset, mem_unseen, mem_flatMap] at hp
  obtain ⟨⟨x, hx, hp⟩, -⟩ := hp
  exact h.inputs_subset hclosure hx hp

end

theorem root_notMem_frontier : root ∉ (frontierOf b current).toFinset :=
  Finset.disjoint_left.mp disjoint_frontier (h.searched.start_subset rfl)

theorem card_union_frontier : (b.visited ∪ (frontierOf b current).toFinset).card =
    done.length + current.length + (frontierOf b current).length := by
  rw [Finset.card_union_of_disjoint disjoint_frontier, h.card_visited,
    frontierOf, toFinset_card_of_nodup nodup_unseen]

end

theorem visited_eq (h : Searching r g root done [] b)
    (hclosure : ∀ p, p ∈ closure ↔ Reachable g [root] p) : b.visited = closure := by
  have hd : (↑b.visited) ⊆ {p | p ∈ done.map Prod.fst} := by
    intro p hp
    simpa [h.visited] using hp
  ext p
  rw [hclosure p]
  refine (h.searched.mem_iff hd).trans ?_
  simp [Reachable]

theorem next (h : Searching r g root done current b)
    (hpe : (out.map Prod.fst).Perm (frontierOf b current)) (hknown : ∀ x ∈ out, g x.1 = some x.2) :
    Searching r g root (done ++ current) out (expand r { b with frontier := [] } current) where
  nodes := by simp [expand, h.nodes]
  edges := by simp [expand, h.edges]
  count := by simp [expand, h.count]
  visited := by
    ext p
    have hm := hpe.mem_iff (a := p)
    rw [frontierOf, mem_unseen] at hm
    rw [map_append, toFinset_append, ← h.visited, expand, Finset.mem_union,
      Finset.mem_union, mem_toFinset, mem_toFinset]
    tauto
  nodup := by
    rw [map_append]
    refine nodup_append.mpr ⟨h.nodup, hpe.nodup_iff.mpr nodup_unseen, ?_⟩
    rintro p hp q hq rfl
    have hn := (mem_unseen.mp (hpe.mem_iff.mp hq)).2
    rw [h.visited] at hn
    exact hn (mem_toFinset.mpr hp)
  knows x hx := by
    rcases mem_append.mp hx with hx | hx
    · exact h.knows x hx
    · exact hknown x hx
  searched := by
    have hc : ∀ x ∈ current, g x.1 = some x.2 :=
      fun x hx => h.knows x (mem_append_right _ hx)
    refine ⟨h.searched.start_subset.trans ?_, ?_, ?_⟩
    · intro p hp
      exact Finset.mem_coe.mpr (Finset.mem_union_left _ hp)
    · intro p hp
      rcases Finset.mem_union.mp hp with hp | hp
      · exact h.searched.reached p hp
      · obtain ⟨q, hq, hst⟩ := (mem_inputs_iff hc).mp (mem_toFinset.mp hp)
        have hse : q ∈ b.visited := by
          rw [h.visited, map_append, mem_toFinset]
          exact mem_append_right _ hq
        obtain ⟨s, hs, hr⟩ := h.searched.reached q hse
        exact ⟨s, hs, hr.tail hst⟩
    · intro p hp c hst
      rw [Set.mem_ofPred_eq, map_append, mem_append] at hp
      rcases hp with hp | hp
      · exact Finset.mem_union_left _ (h.searched.closed p hp c hst)
      · refine Finset.mem_union_right _ (mem_toFinset.mpr ?_)
        exact (mem_inputs_iff hc).mpr ⟨p, hp, hst⟩

end Searching

/-- The search finds the closure, unless it is larger than the limit or does not fit into the
cache together with what is there. -/
inductive Found (r : Resolver δ ν ε) (cap : Nat) (cache : DrvCache δ) (root : String)
    (closure : Finset String) : Except (ReconstructError ε) (Bfs ν × DrvCache δ) → Prop
  | found {done : List (String × Derivation δ)} {b : Bfs ν} {cache' : DrvCache δ}
    (search : Searching r (known r cache) root done [] b)
    (grown : Grown r cache cache' (closure.erase root)) (limit : closure.card ≤ cap)
    (room : closure.erase root ⊆ cache.keys ∨ (cache.keys ∪ closure.erase root).card ≤ cap) :
    Found r cap cache root closure (.ok (b, cache'))
  | overLimit {count} (limit : cap < closure.card) :
    Found r cap cache root closure (.error (.limitExceeded count cap))
  | cacheFull {count frontierLen levels} (missing : ¬closure.erase root ⊆ cache.keys)
    (full : cap < (cache.keys ∪ closure.erase root).card) :
    Found r cap cache root closure
      (.error (.cannotResolve frontierLen levels (.drvCacheFull count cap)))

theorem Searching.found (hclosure : ∀ p, p ∈ closure ↔ Reachable (known r cache) [root] p)
    (h : Searching r (known r cache) root done [] b)
    (hg : Grown r cache cacheNow (b.visited.erase root))
    (hr : b.visited.erase root ⊆ cache.keys ∨ (cache.keys ∪ b.visited.erase root).card ≤ cap)
    (hl : done.length ≤ cap) : Found r cap cache root closure (.ok (b, cacheNow)) := by
  have hv := h.visited_eq hclosure
  rw [hv] at hg hr
  refine .found h hg ?_ hr
  rw [← hv, h.card_visited]
  exact hl

theorem room_next {seen frontier keys : Finset String} (hroo : root ∉ frontier)
    (hd : Disjoint seen frontier)
    (hr : seen.erase root ⊆ keys ∨ (keys ∪ seen.erase root).card ≤ cap)
    (hb : frontier ⊆ keys ∪ seen.erase root ∨ ((keys ∪ seen.erase root) ∪ frontier).card ≤ cap) :
    (seen ∪ frontier).erase root ⊆ keys ∨ (keys ∪ (seen ∪ frontier).erase root).card ≤ cap := by
  rw [Finset.erase_union_distrib, Finset.erase_eq_of_notMem hroo, ← Finset.union_assoc]
  rcases hb with hs | hc
  · have hk : frontier ⊆ keys := by
      intro p hp
      rcases Finset.mem_union.mp (hs hp) with hp' | hp'
      · exact hp'
      · exact absurd hp (Finset.disjoint_left.mp hd (Finset.mem_of_mem_erase hp'))
    rcases hr with hr | hr
    · exact .inl (Finset.union_subset hr hk)
    · rw [Finset.union_eq_left.mpr hs]
      exact .inr hr
  · exact .inr hc

theorem Searching.cacheFull {count frontierLen levels : Nat}
    (hclosure : ∀ p, p ∈ closure ↔ Reachable (known r cache) [root] p)
    (h : Searching r (known r cache) root done current b)
    (hm : ¬(frontierOf b current).toFinset ⊆ cache.keys ∪ b.visited.erase root)
    (hfu : cap < ((cache.keys ∪ b.visited.erase root) ∪ (frontierOf b current).toFinset).card) :
    Found r cap cache root closure
      (.error (.cannotResolve frontierLen levels (.drvCacheFull count cap))) := by
  have hf : (frontierOf b current).toFinset ⊆ closure.erase root := fun p hp =>
    Finset.mem_erase.mpr
      ⟨fun heq => h.root_notMem_frontier (heq ▸ hp), h.frontier_subset hclosure hp⟩
  have hv := Finset.erase_subset_erase root (h.visited_subset hclosure)
  refine .cacheFull (fun ha => hm ?_) (hfu.trans_le ?_)
  · exact (hf.trans ha).trans Finset.subset_union_left
  · rw [Finset.union_assoc]
    exact Finset.card_le_card (Finset.union_subset_union_right (Finset.union_subset hv hf))

theorem bfsLevels_succ (hne : current ≠ [])
    (hl : current.foldlM (visitNode r cap) { b with frontier := [] } = .ok b') :
    bfsLevels r cap (fuel + 1) levels current b cache = if b'.frontier = [] then .ok (b', cache)
      else if cap < b'.count + b'.frontier.length then
        .error (.limitExceeded (b'.count + b'.frontier.length) cap)
      else
        match resolveDerivationsBatch r cap b'.frontier cache with
        | .error source => .error (.cannotResolve b'.frontier.length (levels + 1) source)
        | .ok (current, cache) => bfsLevels r cap fuel (levels + 1) current b' cache := by
  rw [bfsLevels, hl]
  · rfl
  · exact fun heq => hne heq

section

variable (hclosure : ∀ p, p ∈ closure ↔ Reachable (known r cache) [root] p)
include hclosure

section

variable (hknown : ∀ p ∈ closure, ∃ drv, known r cache p = some drv)
include hknown

theorem bfsLevels_found (hpr : ∀ p ∈ closure, r.parsePath p = none)
    (h : Searching r (known r cache) root done current b)
    (hg : Grown r cache cacheNow (b.visited.erase root))
    (hr : b.visited.erase root ⊆ cache.keys ∨ (cache.keys ∪ b.visited.erase root).card ≤ cap)
    (hl : done.length + current.length ≤ cap) (hfu : cap ≤ fuel + done.length) :
    Found r cap cache root closure (bfsLevels r cap fuel levels current b cacheNow) := by
  induction fuel generalizing levels done current b cacheNow with
  | zero =>
    cases current with
    | nil => exact h.found hclosure hg hr hl
    | cons x current =>
      rw [length_cons] at hl
      omega
  | succ fuel ih =>
    by_cases hne : current = []
    · subst hne
      exact h.found hclosure hg hr hl
    have hpo := length_pos_iff.mpr hne
    have hle : current.foldlM (visitNode r cap) { b with frontier := [] } =
        .ok (expand r { b with frontier := [] } current) := by
      refine visitNodes_eq ?_ fun y hy c hc => hpr c (h.inputs_subset hclosure hy hc)
      rw [h.count]
      exact hl
    have hct : (expand r { b with frontier := [] } current).count =
        done.length + current.length := by rw [expand, h.count]
    have hfr : (expand r { b with frontier := [] } current).frontier =
        frontierOf b current := nil_append _
    have hv : (expand r { b with frontier := [] } current).visited =
        b.visited ∪ (frontierOf b current).toFinset := visited_expand
    have hs := h.frontier_subset hclosure
    rw [bfsLevels_succ hne hle, hfr, hct]
    split
    · rename_i hni
      have hn : Searching r (known r cache) root (done ++ current) [] _ :=
        h.next (by rw [hni]; rfl) (by simp)
      rw [hni, toFinset_nil, Finset.union_empty] at hv
      rw [← hv] at hg hr
      exact hn.found hclosure hg hr (by rwa [length_append])
    · split_ifs with hlt
      · refine .overLimit (hlt.trans_le ?_)
        rw [← h.card_union_frontier]
        exact Finset.card_le_card (Finset.union_subset (h.visited_subset hclosure) hs)
      · have hb : Batched r cap (frontierOf b current) cacheNow
            (resolveDerivationsBatch r cap (frontierOf b current) cacheNow) := by
          refine batched nodup_unseen fun p hp => ?_
          rw [hg.known_eq]
          exact hknown p (hs (mem_toFinset.mpr hp))
        cases hre : resolveDerivationsBatch r cap (frontierOf b current) cacheNow with
        | ok res =>
          rw [hre] at hb
          cases hb with
          | resolved hpe ho hg' hr' =>
            have hn := h.next hpe fun x hx => (hg.known_eq _).symm.trans (ho x hx)
            rw [hg.keys_eq] at hr'
            have hr := room_next h.root_notMem_frontier disjoint_frontier hr hr'
            have hg := hg.trans hg'
            rw [← Finset.erase_eq_of_notMem h.root_notMem_frontier, ← Finset.erase_union_distrib,
              ← hv] at hg
            have hlen := hpe.length_eq
            rw [length_map] at hlen
            rw [← hv] at hr
            exact ih hn hg hr (by rw [length_append]; omega) (by rw [length_append]; omega)
        | error source =>
          rw [hre] at hb
          cases hb with
          | full hm hf =>
            rw [hg.keys_eq] at hm hf
            exact h.cacheFull hclosure hm hf

theorem bfs_found (hp : ∀ p ∈ closure, r.parsePath p = none) (hr : known r cache root = some drv) :
    Found r cap cache root closure
      (bfsLevels r cap cap 0 [(root, drv)] { visited := {root} } cache) := by
  have hm : root ∈ closure := (hclosure root).mpr ⟨root, mem_singleton_self root, .refl⟩
  cases cap with
  | zero => exact .overLimit (Finset.card_pos.mpr ⟨root, hm⟩)
  | succ cap =>
    have hn : Finset.erase {root} root = ∅ := by simp
    refine bfsLevels_found hclosure hknown hp (.init hr) ?_ ?_ ?_ ?_
    · exact .refl (by simp)
    · exact .inl (by simp)
    all_goals simp

end

end

end Levels

end RioBuild.Gateway
