import RioBuild.Gateway.Demand

universe u

namespace RioBuild.Gateway

open Lib Dag Search List DerivationNode

variable {ν : Type u} {ε : Type*} {r : Resolver δ ν ε} {p c o : String} {drv : Derivation δ}

section Union

variable {dst src : List String}

def pushAbsent (dst : List String) (n : String) : List String :=
  if n ∈ dst then dst else dst ++ [n]

theorem mem_pushAbsent : o ∈ src.foldl pushAbsent dst ↔ o ∈ dst ∨ o ∈ src := by
  induction src generalizing dst with
  | nil => simp
  | cons n src ih =>
    rw [foldl_cons, ih, pushAbsent]
    split_ifs with hn
    · constructor
      · exact fun h => h.imp_right (mem_cons_of_mem _)
      · rintro (h | h)
        · exact .inl h
        · rcases mem_cons.mp h with rfl | h
          · exact .inl hn
          · exact .inr h
    · simp [or_assoc]

theorem nodup_pushAbsent (h : dst.Nodup) : (src.foldl pushAbsent dst).Nodup := by
  induction src generalizing dst with
  | nil => exact h
  | cons n src ih =>
    refine ih ?_
    rw [pushAbsent]
    split_ifs with hn
    · exact h
    · refine nodup_append.mpr ⟨h, nodup_singleton n, ?_⟩
      rintro m hm _ hn' rfl
      exact hn (mem_singleton.mp hn' ▸ hm)

theorem unionWantedSaturating_eq_nil_iff :
    unionWantedSaturating dst src = [] ↔ dst = [] ∨ src = [] := by
  rw [unionWantedSaturating]
  split_ifs with h
  · exact iff_of_true rfl h
  · refine iff_of_false (fun hni => ?_) h
    obtain ⟨n, hn⟩ := exists_mem_of_ne_nil dst fun hd => h (.inl hd)
    have hm : n ∈ (src.foldl pushAbsent dst).mergeSort :=
      mem_mergeSort.mpr (mem_pushAbsent.mpr (.inl hn))
    exact not_mem_nil (hni ▸ hm)

theorem mem_unionWantedSaturating (hd : dst ≠ []) (hs : src ≠ []) :
    o ∈ unionWantedSaturating dst src ↔ o ∈ dst ∨ o ∈ src := by
  rw [unionWantedSaturating, if_neg (not_or.mpr ⟨hd, hs⟩), mem_mergeSort]
  exact mem_pushAbsent

theorem sorted_unionWantedSaturating (h : dst.Pairwise (· < ·)) :
    (unionWantedSaturating dst src).Pairwise (· < ·) := by
  rw [unionWantedSaturating]
  split
  · exact List.Pairwise.nil
  · have hn : (src.foldl pushAbsent dst).mergeSort.Nodup :=
      (mergeSort_perm _ _).nodup_iff.mpr (nodup_pushAbsent (h.imp ne_of_lt))
    have hle := pairwise_mergeSort' (· ≤ ·) (src.foldl pushAbsent dst)
    exact (hle.and hn).imp fun h => lt_of_le_of_ne h.1 h.2

end Union

theorem drvPath_eq_of_bare (h : bare n = bare m) : n.drvPath = m.drvPath := by
  change (bare n).drvPath = (bare m).drvPath
  rw [h]

theorem eq_of_bare (h : bare n = bare m) (hw : n.wantedOutputNames = m.wantedOutputNames)
    (hr : n.rest.explicitlyRequested = m.rest.explicitlyRequested) : n = m := by
  obtain ⟨_, _, _, _, _, _, _, _, _, _, _⟩ := n
  simp_all [bare]

structure Merged (l : List (Node ν)) (n : Node ν) : Prop where
  kept : ∃ m ∈ l, bare n = bare m
  requested : n.rest.explicitlyRequested = true ↔
    ∃ m ∈ l, m.drvPath = n.drvPath ∧ m.rest.explicitlyRequested = true
  all : n.wantedOutputNames = [] ↔ ∃ m ∈ l, m.drvPath = n.drvPath ∧ m.wantedOutputNames = []
  names : n.wantedOutputNames ≠ [] → ∀ o, o ∈ n.wantedOutputNames ↔
    ∃ m ∈ l, m.drvPath = n.drvPath ∧ o ∈ m.wantedOutputNames
  sorted : n.wantedOutputNames.Pairwise (· < ·)

section Merge

variable {l : List (Node ν)} {m : Node ν}

theorem Merged.mono (h : Merged l n) (hm : m.drvPath ≠ n.drvPath) : Merged (l ++ [m]) n := by
  obtain ⟨⟨k, hk, hb⟩, hr, ha, hn, hs⟩ := h
  refine ⟨⟨k, mem_append_left _ hk, hb⟩, ?_, ?_, fun hne o => ?_, hs⟩
  · simp [hr, hm]
  · simp [ha, hm]
  · simp [hn hne, hm]

theorem Merged.new (hf : ∀ k ∈ l, k.drvPath ≠ m.drvPath)
    (hs : m.wantedOutputNames.Pairwise (· < ·)) : Merged (l ++ [m]) m := by
  have ho (q : Node ν → Prop) : (∃ k ∈ l ++ [m], k.drvPath = m.drvPath ∧ q k) ↔ q m := by
    constructor
    · rintro ⟨k, hk, hp, hq⟩
      rcases mem_append.mp hk with hk | hk
      · exact absurd hp (hf k hk)
      · exact mem_singleton.mp hk ▸ hq
    · exact fun hq => ⟨m, by simp, rfl, hq⟩
  exact ⟨⟨m, by simp, rfl⟩, (ho (·.rest.explicitlyRequested = true)).symm,
    (ho (·.wantedOutputNames = [])).symm, fun _ o => (ho (o ∈ ·.wantedOutputNames)).symm, hs⟩

@[simp] theorem mergeDemand_drvPath : (mergeDemand n m).drvPath = n.drvPath := rfl

theorem Merged.merge (h : Merged l n) (hp : m.drvPath = n.drvPath) :
    Merged (l ++ [m]) (mergeDemand n m) := by
  obtain ⟨⟨k, hk, hb⟩, hr, ha, hna, hs⟩ := h
  have hc (q : Node ν → Prop) : (∃ k ∈ l ++ [m], k.drvPath = n.drvPath ∧ q k) ↔
      (∃ k ∈ l, k.drvPath = n.drvPath ∧ q k) ∨ q m := by
    simp [hp]
  refine ⟨⟨k, mem_append_left _ hk, hb⟩, ?_, ?_, fun hne o => ?_, sorted_unionWantedSaturating hs⟩
  · rw [mergeDemand_drvPath, hc, ← hr]
    exact Bool.or_eq_true _ _ ▸ Iff.rfl
  · rw [mergeDemand_drvPath, hc, ← ha]
    exact unionWantedSaturating_eq_nil_iff
  · obtain ⟨hn, hm⟩ := not_or.mp (unionWantedSaturating_eq_nil_iff.not.mp hne)
    rw [mergeDemand_drvPath, hc, ← hna hn]
    exact mem_unionWantedSaturating hn hm

structure Deduped (l : List (Node ν)) (st : Map String Nat × List (Node ν)) : Prop where
  index : ∀ p i, st.1.lookup p = some i ↔ ∃ n, st.2[i]? = some n ∧ n.drvPath = p
  covers : ∀ m ∈ l, ∃ n ∈ st.2, n.drvPath = m.drvPath
  merged : ∀ n ∈ st.2, Merged l n

theorem Deduped.nil : Deduped ([] : List (Node ν)) (∅, []) where
  index p i := by simp
  covers m hm := absurd hm not_mem_nil
  merged n hn := absurd hn not_mem_nil

theorem Deduped.notMem (h : Deduped l st) (hp : st.1.lookup p = none) :
    ∀ n ∈ st.2, n.drvPath ≠ p := by
  rintro n hn rfl
  obtain ⟨i, hi⟩ := mem_iff_getElem?.mp hn
  rw [(h.index n.drvPath i).mpr ⟨n, hi, rfl⟩] at hp
  cases hp

theorem getElem?_concat_ite {l : List α} :
    (l ++ [a])[i]? = if i = l.length then some a else l[i]? := by
  grind

theorem Deduped.push (h : Deduped l (keep, out)) (hm : keep.lookup m.drvPath = none)
    (hs : m.wantedOutputNames.Pairwise (· < ·)) :
    Deduped (l ++ [m]) (keep.insert m.drvPath out.length, out ++ [m]) := by
  have hne := h.notMem hm
  refine ⟨fun p i => ?_, fun k hk => ?_, fun n hn => ?_⟩
  · have hix := h.index p i
    rw [Map.lookup_insert_ite, getElem?_concat_ite]
    by_cases hi : i = out.length
    · subst hi
      by_cases hp : p = m.drvPath
      · simp [hp]
      · rw [if_neg hp, hix]
        simp [Ne.symm hp]
    · rw [if_neg hi, ← hix]
      by_cases hp : p = m.drvPath
      · subst hp
        rw [hm]
        simp [Ne.symm hi]
      · rw [if_neg hp]
  · rcases mem_append.mp hk with hk | hk
    · obtain ⟨n, hn, hpa⟩ := h.covers k hk
      exact ⟨n, mem_append_left _ hn, hpa⟩
    · exact ⟨m, by simp, by rw [mem_singleton.mp hk]⟩
  · rcases mem_append.mp hn with hn | hn
    · exact (h.merged n hn).mono fun heq => hne n hn heq.symm
    · rw [mem_singleton.mp hn]
      refine .new (fun k hk heq => ?_) hs
      obtain ⟨n, hn, hpa⟩ := h.covers k hk
      exact hne n hn (hpa.trans heq)

theorem Deduped.modify (h : Deduped l (keep, out)) (hm : keep.lookup m.drvPath = some i) :
    Deduped (l ++ [m]) (keep, out.modify i (mergeDemand · m)) := by
  obtain ⟨k, hk, hp⟩ := (h.index m.drvPath i).mp hm
  have hg j : (out.modify i (mergeDemand · m))[j]? =
      if i = j then some (mergeDemand k m) else out[j]? := by
    rw [getElem?_modify]
    split_ifs with hi
    · rw [← hi, hk]
      rfl
    · simp
  have hps : (out.modify i (mergeDemand · m)).map drvPath = out.map drvPath := by
    refine ext_getElem? fun j => ?_
    rw [getElem?_map, getElem?_map, hg]
    split_ifs with hi
    · rw [← hi, hk]
      rfl
    · rfl
  have hme p : (∃ n ∈ out.modify i (mergeDemand · m), n.drvPath = p) ↔
      ∃ n ∈ out, n.drvPath = p := by
    rw [← mem_map, ← mem_map, hps]
  refine ⟨fun p j => ?_, fun k' hk' => (hme _).mpr ?_, fun n hn => ?_⟩
  · rw [h.index]
    rw [hg]
    split_ifs with hi
    · simp [← hi, hk]
    · rfl
  · rcases mem_append.mp hk' with hk' | hk'
    · exact h.covers k' hk'
    · exact ⟨k, mem_of_getElem? hk, by rw [mem_singleton.mp hk', hp]⟩
  · obtain ⟨j, hj⟩ := mem_iff_getElem?.mp hn
    rw [hg] at hj
    split_ifs at hj with hi
    · obtain rfl := Option.some.inj hj
      exact (h.merged k (mem_of_getElem? hk)).merge hp.symm
    · refine (h.merged n (mem_of_getElem? hj)).mono fun heq => hi ?_
      have hjn := (h.index m.drvPath j).mpr ⟨n, hj, heq.symm⟩
      rw [hm] at hjn
      exact Option.some.inj hjn

theorem Deduped.dedupNode (h : Deduped l st) (hs : m.wantedOutputNames.Pairwise (· < ·)) :
    Deduped (l ++ [m]) (dedupNode st m) := by
  rw [Gateway.dedupNode]
  cases hl : st.1.lookup m.drvPath with
  | none => exact h.push hl hs
  | some i => exact h.modify hl

theorem Deduped.dedupNodes (h : Deduped l st)
    (hs : ∀ n ∈ nodes, n.wantedOutputNames.Pairwise (· < ·)) :
    Deduped (l ++ nodes) (nodes.foldl Gateway.dedupNode st) := by
  induction nodes generalizing l st with
  | nil => simpa using h
  | cons n nodes ih =>
    obtain ⟨hn, hns⟩ := forall_mem_cons.mp hs
    have hst := ih (h.dedupNode hn) hns
    rwa [append_assoc] at hst

theorem Deduped.nodup (h : Deduped l st) : (st.2.map drvPath).Nodup := by
  rw [nodup_iff_getElem?_ne_getElem?]
  intro i j hij hj heq
  rw [length_map] at hj
  rw [getElem?_map, getElem?_map, getElem?_eq_getElem hj, getElem?_eq_getElem (hij.trans hj)] at heq
  have hi := (h.index st.2[i].drvPath i).mpr ⟨_, getElem?_eq_getElem _, rfl⟩
  have hj' := (h.index st.2[i].drvPath j).mpr
    ⟨_, getElem?_eq_getElem hj, (Option.some.inj heq).symm⟩
  rw [hi] at hj'
  exact hij.ne (Option.some.inj hj')

end Merge

def endpoints (e : DerivationEdge) : String × String := (e.parentDrvPath, e.childDrvPath)

theorem endpoints_injective : Function.Injective endpoints := by
  rintro ⟨a, b⟩ ⟨c, d⟩ h
  cases h
  rfl

theorem dedupEdges_eq {edges out : List DerivationEdge} :
    (edges.foldl dedupEdge (seen, out)).2.map endpoints =
      out.map endpoints ++ unseen seen (edges.map endpoints) := by
  induction edges generalizing seen out with
  | nil => simp [unseen]
  | cons e edges ih =>
    have hs : dedupEdge (seen, out) e =
        if endpoints e ∈ seen then (seen, out) else (insert (endpoints e) seen, out ++ [e]) := rfl
    rw [foldl_cons, hs, map_cons, unseen]
    split
    · exact ih
    · rw [ih]
      simp

variable {edges : List DerivationEdge}

theorem nodup_dedupEdges : (edges.foldl dedupEdge (∅, [])).2.Nodup := by
  refine List.Nodup.of_map endpoints ?_
  rw [dedupEdges_eq]
  exact nodup_unseen

theorem mem_dedupEdges : e ∈ (edges.foldl dedupEdge (∅, [])).2 ↔ e ∈ edges := by
  rw [← mem_map_of_injective endpoints_injective, dedupEdges_eq]
  simp [mem_map_of_injective endpoints_injective]

section Targets

variable {targets : List Target}

theorem reachable_targets_iff :
    Reachable g (targets.map Target.drv) p ↔ ∃ t ∈ targets, Reachable g [t.drv] p := by
  simp [Reachable]

theorem View.append (h : View r g targets nodes edges) (h' : View r g targets' nodes' edges') :
    View r g (targets ++ targets') (nodes ++ nodes') (edges ++ edges') := by
  refine ⟨fun n hn => ?_, fun t ht p hp => ?_, fun e => ?_⟩
  · rcases mem_append.mp hn with hn | hn
    · obtain ⟨t, ht, hd⟩ := h.demanded n hn
      exact ⟨t, mem_append_left _ ht, hd⟩
    · obtain ⟨t, ht, hd⟩ := h'.demanded n hn
      exact ⟨t, mem_append_right _ ht, hd⟩
  · rcases mem_append.mp ht with ht | ht
    · obtain ⟨n, hn, hd⟩ := h.covers t ht p hp
      exact ⟨n, mem_append_left _ hn, hd⟩
    · obtain ⟨n, hn, hd⟩ := h'.covers t ht p hp
      exact ⟨n, mem_append_right _ hn, hd⟩
  · rw [mem_append, h.mem_edges, h'.mem_edges, ← or_and_right]
    refine and_congr_left fun _ => ?_
    simp only [reachable_targets_iff, mem_append, or_and_right, exists_or]

theorem resolveDerivation_ok (hk : known r cache p = some drv)
    (hr : (cache.keys ∪ {p}).card ≤ cap) :
    ∃ cache', resolveDerivation r cap p cache = .ok (drv, cache') ∧ Grown r cache cache' {p} := by
  rw [resolveDerivation]
  cases hl : cache.lookup p with
  | some cached =>
    rw [known_of_lookup hl] at hk
    have hks : p ∈ cache.keys := Finmap.mem_keys.mpr (Finmap.mem_of_lookup_eq_some hl)
    exact ⟨cache, by rw [Option.some.inj hk], .refl (by simpa using hks)⟩
  | none =>
    have hks := lookup_eq_none_iff.mp hl
    rw [Finset.union_comm, ← Finset.insert_eq, Finset.card_insert_of_notMem hks] at hr
    have hi : insertDrvBounded cap cache p drv = some (cache.insert p drv) := by
      rw [insertDrvBounded, if_neg]
      omega
    refine ⟨cache.insert p drv, ?_, Grown.insert (x := (p, drv)) hk⟩
    simp [getPath_of_known hk hks, hi]

theorem resolveBuiltDag_view (hgr : KnownGraph r (known r cache) graph)
    (ht : t.drv ∈ graph) (hro : (cache.keys ∪ graph).card ≤ cap) :
    ∃ nodes edges cache' paths, resolveBuiltDag r cap t cache = .ok ((nodes, edges), cache') ∧
      View r (known r cache) [t] nodes edges ∧ Grown r cache cache' paths ∧ paths ⊆ graph := by
  classical
  obtain ⟨drv, hd⟩ := hgr.resolves t.drv ht
  have hc {s : Finset String} hs : s.card ≤ cap :=
    (Finset.card_le_card hs).trans hro
  have hse : {t.drv} ⊆ graph := Finset.singleton_subset_iff.mpr ht
  obtain ⟨cache1, hr, hg1⟩ := resolveDerivation_ok hd (hc (Finset.union_subset_union_right hse))
  have hk : known r cache1 = known r cache := funext hg1.known_eq
  have hks : t.drv ∈ cache1.keys := by
    rw [hg1.keys_eq]
    exact Finset.mem_union_right _ (mem_singleton_self _)
  have hl : cache1.lookup t.drv = some drv := by
    rw [lookup_eq_known hks, hk, hd]
  have hcl p : p ∈ graph.filter (Reachable (known r cache1) [t.drv]) ↔
      Reachable (known r cache1) [t.drv] p := by
    rw [Finset.mem_filter, hk]
    refine and_iff_right_of_imp fun hp => hgr.reachable ?_ hp
    simpa using ht
  have hsu := Finset.filter_subset (Reachable (known r cache1) [t.drv]) graph
  have he := (Finset.erase_subset t.drv _).trans hsu
  obtain ⟨nodes, edges, cache2, hre, hv, hg2⟩ := reconstructDag_view (hk ▸ hgr)
    hcl hsu hl (hc (hsu.trans Finset.subset_union_right)) (by
      rw [hg1.keys_eq, Finset.union_assoc]
      exact hc (Finset.union_subset_union_right (Finset.union_subset hse he)))
  refine ⟨nodes, edges, cache2, _, ?_, hk ▸ hv, hg1.trans hg2, Finset.union_subset hse he⟩
  rw [resolveBuiltDag, hr]
  exact hre

theorem collectDags_view (hgr : KnownGraph r (known r cache) graph)
    (ht : ∀ t ∈ targets, t.drv ∈ graph) (hr : (cache.keys ∪ graph).card ≤ cap) :
    ∃ nodes edges cache', collectDags r cap targets cache = .ok ((nodes, edges), cache') ∧
      View r (known r cache) targets nodes edges := by
  induction targets generalizing cache with
  | nil =>
    refine ⟨[], [], cache, rfl, by simp, by simp, fun e => ?_⟩
    simp [Reachable]
  | cons t targets ih =>
    obtain ⟨ht, hta⟩ := forall_mem_cons.mp ht
    obtain ⟨nodes, edges, cache1, paths, hb, hv, hg, hp⟩ :=
      resolveBuiltDag_view hgr ht hr
    have hk : known r cache1 = known r cache := funext hg.known_eq
    have hks : cache1.keys ∪ graph = cache.keys ∪ graph := by
      rw [hg.keys_eq, Finset.union_assoc, Finset.union_eq_right.mpr hp]
    obtain ⟨nodes', edges', cache2, hc, hv'⟩ :=
      ih (hk ▸ hgr) hta (hks ▸ hr)
    refine ⟨nodes ++ nodes', edges ++ edges', cache2, ?_, hv.append (hk ▸ hv')⟩
    rw [collectDags, hb]
    change (collectDags r cap targets cache1 >>= _) = _
    rw [hc]
    rfl

theorem wanted_targets_iff : Wanted g targets p o ↔ ∃ t ∈ targets, Wanted g [t] p o := by
  constructor
  · rintro (⟨t, ht, hp⟩ | ⟨c, drv, names, hc, hd, hp⟩)
    · exact ⟨t, ht, .inl ⟨t, mem_singleton_self t, hp⟩⟩
    · obtain ⟨t, ht, hc⟩ := reachable_targets_iff.mp hc
      exact ⟨t, ht, .inr ⟨c, drv, names, hc, hd, hp⟩⟩
  · rintro ⟨t, ht, ⟨t', ht', hp⟩ | ⟨c, drv, names, hc, hd, hp⟩⟩
    · exact .inl ⟨t, ht, mem_singleton.mp ht' ▸ hp⟩
    · exact .inr ⟨c, drv, names, reachable_targets_iff.mpr ⟨t, ht, hc⟩, hd, hp⟩

theorem Wanted.reachable (h : Wanted g [t] p o) : Reachable g [t.drv] p := by
  rcases h with ⟨t', ht', hp, -⟩ | ⟨c, drv, names, ⟨s, hs, hr⟩, hd, hp, -⟩
  · rw [mem_singleton.mp ht'] at hp
    exact ⟨t.drv, mem_singleton_self _, hp ▸ .refl⟩
  · exact ⟨s, hs, hr.tail ⟨drv, hd, mem_map_of_mem hp⟩⟩

theorem View.merged (h : View r g targets nodes edges) (hn : Merged nodes n) :
    Demanded r g targets n := by
  obtain ⟨m, hm, hb⟩ := hn.kept
  have hpa : n.drvPath = m.drvPath := drvPath_eq_of_bare hb
  have hse (t : Target) : Reachable g [t.drv] t.drv := ⟨t.drv, mem_singleton_self _, .refl⟩
  refine ⟨?_, ?_, fun ha => ?_, fun ha => ?_⟩
  · obtain ⟨t, -, -, hd⟩ := h.demanded m hm
    rw [hpa, hb]
    exact hd.node
  · rw [hn.requested]
    constructor
    · rintro ⟨m, hm, hpa, hr⟩
      obtain ⟨t, ht, -, hd⟩ := h.demanded m hm
      rw [hd.requested, hpa, map_singleton, mem_singleton] at hr
      exact hr ▸ mem_map_of_mem ht
    · intro hme
      obtain ⟨t, ht, hdv⟩ := mem_map.mp hme
      obtain ⟨m, hm, hpa, hd⟩ := h.covers t ht t.drv (hse t)
      exact ⟨m, hm, hpa.trans hdv, hd.requested.mpr (by simp [hpa])⟩
  · obtain ⟨t, ht, hdv, hs⟩ := ha
    obtain ⟨m, hm, hpa, hd⟩ := h.covers t ht t.drv (hse t)
    refine hn.all.mpr ⟨m, hm, hpa.trans hdv, hd.all ?_⟩
    exact ⟨t, mem_singleton_self t, hpa.symm, hs⟩
  · have hc {m : Node ν} {t : Target} (ht : t ∈ targets) (hp : m.drvPath = n.drvPath) :
        ¬AllWanted [t] m.drvPath := by
      rintro ⟨t', ht', hdv, hs⟩
      rw [mem_singleton.mp ht'] at hdv hs
      exact ha ⟨t, ht, hdv.trans hp, hs⟩
    have hne : n.wantedOutputNames ≠ [] := by
      intro hni
      obtain ⟨m, hm, hpa, hni⟩ := hn.all.mp hni
      obtain ⟨t, ht, -, hd⟩ := h.demanded m hm
      exact (hd.names (hc ht hpa)).1 hni
    refine ⟨hne, hn.sorted, fun o => ?_⟩
    rw [hn.names hne, wanted_targets_iff]
    constructor
    · rintro ⟨m, hm, hpa, ho⟩
      obtain ⟨t, ht, -, hd⟩ := h.demanded m hm
      exact ⟨t, ht, hpa ▸ ((hd.names (hc ht hpa)).2.2 o).mp ho⟩
    · rintro ⟨t, ht, ho⟩
      obtain ⟨m, hm, hpa, hd⟩ := h.covers t ht n.drvPath ho.reachable
      exact ⟨m, hm, hpa, ((hd.names (hc ht hpa)).2.2 o).mpr (hpa ▸ ho)⟩

theorem View.sorted (h : View r g targets nodes edges) :
    ∀ n ∈ nodes, n.wantedOutputNames.Pairwise (· < ·) := by
  intro n hn
  obtain ⟨t, -, -, hd⟩ := h.demanded n hn
  by_cases ha : AllWanted [t] n.drvPath
  · rw [hd.all ha]
    exact List.Pairwise.nil
  · exact (hd.names ha).2.1

structure Submitted (r : Resolver δ ν ε) (g : String → Option (Derivation δ))
    (targets : List Target) (nodes : List (Node ν)) (edges : List DerivationEdge) : Prop where
  nodup_nodes : (nodes.map drvPath).Nodup
  mem_nodes : ∀ p, p ∈ nodes.map drvPath ↔ Reachable g (targets.map Target.drv) p
  demanded : ∀ n ∈ nodes, Demanded r g targets n
  nodup_edges : edges.Nodup
  mem_edges : ∀ e, e ∈ edges ↔
    Reachable g (targets.map Target.drv) e.parentDrvPath ∧ Input g e.parentDrvPath e.childDrvPath

theorem submittedDag_ok (hg : KnownGraph r (known r cache) graph)
    (ht : ∀ t ∈ targets, t.drv ∈ graph) (hro : (cache.keys ∪ graph).card ≤ cap) :
    ∃ nodes edges, submittedDag r cap targets cache = .ok (nodes, edges) ∧
      Submitted r (known r cache) targets nodes edges := by
  obtain ⟨nodes, edges, cache', hc, hv⟩ := collectDags_view hg ht hro
  have hd := Deduped.nil.dedupNodes hv.sorted
  refine ⟨(nodes.foldl dedupNode (∅, [])).2, (edges.foldl dedupEdge (∅, [])).2, ?_,
    hd.nodup, fun p => ?_, fun n hn => hv.merged (hd.merged n hn), nodup_dedupEdges,
    fun e => mem_dedupEdges.trans (hv.mem_edges e)⟩
  · rw [submittedDag, hc]
    rfl
  · rw [mem_map, reachable_targets_iff]
    constructor
    · rintro ⟨n, hn, rfl⟩
      obtain ⟨m, hm, hb⟩ := (hd.merged n hn).kept
      have hp : n.drvPath = m.drvPath := drvPath_eq_of_bare hb
      obtain ⟨t, ht, hr, -⟩ := hv.demanded m hm
      exact ⟨t, ht, hp ▸ hr⟩
    · rintro ⟨t, ht, hr⟩
      obtain ⟨m, hm, rfl, -⟩ := hv.covers t ht p hr
      exact hd.covers m hm

theorem Demanded.unique (hn : Demanded r g targets n) (hm : Demanded r g targets m)
    (hp : n.drvPath = m.drvPath) : n = m := by
  obtain ⟨drv, hd, hb⟩ := hn.node
  obtain ⟨drv', hd', hb'⟩ := hm.node
  rw [← hp, hd] at hd'
  rw [← hp, ← Option.some.inj hd', ← hb] at hb'
  refine eq_of_bare hb'.symm ?_ ?_
  · by_cases ha : AllWanted targets n.drvPath
    · rw [hn.all ha, hm.all (hp ▸ ha)]
    · obtain ⟨-, hs, hme⟩ := hn.names ha
      obtain ⟨-, hs', hme'⟩ := hm.names (hp ▸ ha)
      refine hs.eq_of_mem_iff hs' fun o => ?_
      rw [hme, hme', hp]
  · rw [Bool.eq_iff_iff, hn.requested, hm.requested, hp]

section Perm

variable {targets' : List Target}

section

variable (h : ∀ t, t ∈ targets ↔ t ∈ targets')
include h

theorem reachable_congr :
    Reachable g (targets.map Target.drv) p ↔ Reachable g (targets'.map Target.drv) p := by
  simp [reachable_targets_iff, h]

theorem Demanded.congr (hn : Demanded r g targets n) : Demanded r g targets' n := by
  have ha : AllWanted targets' n.drvPath ↔ AllWanted targets n.drvPath := by
    simp [AllWanted, h]
  refine ⟨hn.node, ?_, hn.all ∘ ha.mp, fun hno => ?_⟩
  · simp [hn.requested, h]
  · obtain ⟨hne, hs, hm⟩ := hn.names (hno ∘ ha.mpr)
    refine ⟨hne, hs, fun o => ?_⟩
    simp [hm, Wanted, h, reachable_congr h]

theorem Submitted.subset
    (hs : Submitted r g targets nodes edges) (hs' : Submitted r g targets' nodes' edges') :
    nodes ⊆ nodes' := by
  intro n hn
  have hr := (hs.mem_nodes _).mp (mem_map_of_mem hn)
  rw [reachable_congr h, ← hs'.mem_nodes] at hr
  obtain ⟨m, hm, hp⟩ := mem_map.mp hr
  rwa [((hs.demanded n hn).congr h).unique (hs'.demanded m hm) hp.symm]

theorem Submitted.perm
    (hs : Submitted r g targets nodes edges) (hs' : Submitted r g targets' nodes' edges') :
    nodes.Perm nodes' ∧ edges.Perm edges' := by
  constructor
  · refine (perm_ext_iff_of_nodup hs.nodup_nodes.of_map hs'.nodup_nodes.of_map).mpr fun n => ?_
    exact ⟨fun hn => hs.subset h hs' hn, fun hn => hs'.subset (fun t => (h t).symm) hs hn⟩
  · refine (perm_ext_iff_of_nodup hs.nodup_edges hs'.nodup_edges).mpr fun e => ?_
    rw [hs.mem_edges, hs'.mem_edges, reachable_congr h]

end

end Perm

theorem exists_reconstructDag_error_iff
    {closure : Finset String} (hg : KnownGraph r (known r cache) graph) (hr : root ∈ graph)
    (hd : known r cache root = some drv)
    (hc : ∀ p, p ∈ closure ↔ Reachable (known r cache) [root] p) :
    (∃ e, reconstructDag r cap root drv outputs cache = .error e) ↔ cap < closure.card ∨
        ¬closure.erase root ⊆ cache.keys ∧ cap < (cache.keys ∪ closure.erase root).card := by
  have hs : ∀ p ∈ closure, p ∈ graph := fun p hp =>
    hg.reachable (by simpa using hr) ((hc p).mp hp)
  have ho : (∃ res, reconstructDag r cap root drv outputs cache = .ok res) ↔ _ :=
    exists_reconstructDag_ok_iff hc (fun p hp => hg.resolves p (hs p hp))
      (fun p hp => hg.parses p (hs p hp)) hd
  have hn : (∃ e, reconstructDag r cap root drv outputs cache = .error e) ↔
      ¬∃ res, reconstructDag r cap root drv outputs cache = .ok res := by
    cases reconstructDag r cap root drv outputs cache with
    | error e | ok res => simp
  rw [hn, ho, not_and_or, not_or, not_le, not_le]

theorem submittedDag_exact (hgraph : KnownGraph r (known r cache) graph)
    (ht : ∀ t ∈ targets, t.drv ∈ graph) (hroom : (cache.keys ∪ graph).card ≤ cap) :
    (∃ nodes edges, submittedDag r cap targets cache = .ok (nodes, edges) ∧
      Submitted r (known r cache) targets nodes edges ∧
      (∀ e ∈ edges, e.parentDrvPath ∈ nodes.map drvPath ∧ e.childDrvPath ∈ nodes.map drvPath) ∧
      ∀ targets' : List Target, targets'.Perm targets → ∃ nodes' edges',
        submittedDag r cap targets' cache = .ok (nodes', edges') ∧
        nodes'.Perm nodes ∧ edges'.Perm edges) ∧
    ∀ root ∈ graph, ∀ drv, known r cache root = some drv → ∀ outputs closure,
      (∀ p, p ∈ closure ↔ Reachable (known r cache) [root] p) → ∀ budget,
      ((∃ e, reconstructDag r budget root drv outputs cache = .error e) ↔ budget < closure.card ∨
          ¬closure.erase root ⊆ cache.keys ∧ budget < (cache.keys ∪ closure.erase root).card) ∧
      (cache.keys ⊆ closure →
        ((∃ e, reconstructDag r budget root drv outputs cache = .error e) ↔
          budget < closure.card)) := by
  constructor
  · obtain ⟨nodes, edges, hsu, hs⟩ := submittedDag_ok hgraph ht hroom
    refine ⟨nodes, edges, hsu, hs, fun e he => ?_, fun targets' hp => ?_⟩
    · obtain ⟨hpa, hin⟩ := (hs.mem_edges e).mp he
      refine ⟨(hs.mem_nodes _).mpr hpa, (hs.mem_nodes _).mpr ?_⟩
      obtain ⟨root, hr, hre⟩ := hpa
      exact ⟨root, hr, hre.tail hin⟩
    · obtain ⟨nodes', edges', hsu', hs'⟩ :=
        submittedDag_ok hgraph (fun t htt => ht t (hp.mem_iff.mp htt)) hroom
      exact ⟨nodes', edges', hsu', hs'.perm (fun t => hp.mem_iff) hs⟩
  · intro root hr drv hd outputs closure hc budget
    have hi : (∃ e, reconstructDag r budget root drv outputs cache = .error e) ↔ _ :=
      exists_reconstructDag_error_iff hgraph hr hd hc
    refine ⟨hi, fun hk => hi.trans (or_iff_left_of_imp fun h => h.2.trans_le ?_)⟩
    exact Finset.card_le_card (Finset.union_subset hk (Finset.erase_subset _ _))

end Targets

def leafDrv : Derivation Unit := ⟨[], [], (), List.Pairwise.nil⟩

def consumerDrv (input : String) : Derivation Unit :=
  ⟨[], [(input, {"out"})], (), pairwise_singleton _ _⟩

def chainStore : Resolver Unit Unit Unit where
  parsePath _ := none
  getPath p :=
    if p = "a" then .ok (consumerDrv "b")
    else if p = "b" then .ok (consumerDrv "c")
    else if p = "c" then .ok leafDrv
    else .error ()
  arrival := id
  arrival_perm _ := .refl _
  attrs _ := ()

theorem chain_known (hr : ∀ p ∈ graph, (known chainStore cache p).isSome = true)
    (hcl : ∀ p ∈ graph, ∀ drv ∈ known chainStore cache p, ∀ x ∈ drv.inputDrvs,
      x.1 ∈ graph ∧ x.2.Nonempty) :
    KnownGraph chainStore (known chainStore cache) graph where
  resolves p hp := Option.isSome_iff_exists.mp (hr p hp)
  parses _ _ := rfl
  closed p hp c := by
    rintro ⟨drv, hd, hc⟩
    obtain ⟨x, hx, rfl⟩ := mem_map.mp hc
    exact (hcl p hp drv hd x hx).1
  names p hp drv hd x hx := (hcl p hp drv hd x hx).2

def busyCache (target input : String) : DrvCache Unit :=
  (Finmap.singleton target (consumerDrv input)).insert "x" leafDrv

theorem busyCache_known :
    KnownGraph chainStore (known chainStore (busyCache "b" "c")) {"b", "c", "x"} := by
  refine chain_known (by decide) fun p hp drv hd x hx => ?_
  simp only [Finset.mem_insert, Finset.mem_singleton] at hp
  rcases hp with rfl | rfl | rfl
  · obtain rfl : consumerDrv "c" = drv := Option.some.inj hd
    obtain rfl := mem_singleton.mp hx
    decide
  all_goals
    obtain rfl : leafDrv = drv := Option.some.inj hd
    exact absurd hx not_mem_nil

theorem busyCache_reachable (p : String) : p ∈ ({"b", "c"} : Finset String) ↔
    Reachable (known chainStore (busyCache "b" "c")) ["b"] p := by
  have hs : Input (known chainStore (busyCache "b" "c")) "b" "c" :=
    ⟨consumerDrv "c", rfl, by decide⟩
  constructor
  · intro hp
    simp only [Finset.mem_insert, Finset.mem_singleton] at hp
    rcases hp with rfl | rfl
    · exact ⟨"b", by simp, .refl⟩
    · exact ⟨"b", by simp, .single hs⟩
  · rintro ⟨root, hro, hr⟩
    rw [mem_singleton.mp hro] at hr
    induction hr with
    | refl => decide
    | tail _ hn ih =>
      obtain ⟨drv, hd, hc⟩ := hn
      simp only [Finset.mem_insert, Finset.mem_singleton] at ih
      rcases ih with rfl | rfl
      · obtain rfl : consumerDrv "c" = drv := Option.some.inj hd
        rw [mem_singleton.mp hc]
        decide
      · obtain rfl : leafDrv = drv := Option.some.inj hd
        exact absurd hc not_mem_nil

/-- Two derivations are reachable and two are allowed, but the cache is full; and with three
reachable it is again the cache that fails, not the limit. -/
theorem reconstructDag_fails_on_full_cache :
    KnownGraph chainStore (known chainStore (busyCache "b" "c")) {"b", "c", "x"} ∧
    (∀ p, p ∈ ({"b", "c"} : Finset String) ↔
      Reachable (known chainStore (busyCache "b" "c")) ["b"] p) ∧
    ({"b", "c"} : Finset String).card ≤ 2 ∧
    reconstructDag chainStore 2 "b" (consumerDrv "c") none (busyCache "b" "c") =
      .error (.cannotResolve 1 1 (.drvCacheFull 3 2)) ∧
    reconstructDag chainStore 2 "a" (consumerDrv "b") none (busyCache "a" "b") =
      .error (.cannotResolve 1 1 (.drvCacheFull 3 2)) :=
  ⟨busyCache_known, busyCache_reachable, by decide, rfl, rfl⟩

def chainTargets : List Target := [⟨"b", .names ["dev"] (cons_ne_nil _ _)⟩, ⟨"c", .all⟩]

theorem submittedDag_exact_chain :
    ∃ nodes edges, submittedDag chainStore 3 chainTargets (busyCache "b" "c") = .ok (nodes, edges) ∧
      Submitted chainStore (known chainStore (busyCache "b" "c")) chainTargets nodes edges := by
  have ht : ∀ t ∈ chainTargets, t.drv ∈ ({"b", "c", "x"} : Finset String) := by
    simp [chainTargets]
  have hr : ((busyCache "b" "c").keys ∪ {"b", "c", "x"}).card ≤ 3 := by decide
  obtain ⟨nodes, edges, hsu, hs, -⟩ := (submittedDag_exact busyCache_known ht hr).1
  exact ⟨nodes, edges, hsu, hs⟩

end RioBuild.Gateway
