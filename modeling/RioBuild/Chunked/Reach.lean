import RioBuild.Chunked.Begin

namespace RioBuild.Chunked

open Lib Castore Nar List

theorem addDirectory_eq_ok :
    addDirectory k dirs x = .ok dirs' ↔ ValidDirectory x.1 ∧ k.directoryDigest x.1 ∉ dirs.keys ∧
      dirs' = dirs.insert (k.directoryDigest x.1) x.1 := by
  rw [← validateDirectory_eq_ok]
  unfold addDirectory
  constructor
  · intro h
    split at h
    · cases h
    rename_i hv
    split at h
    · cases h
    rename_i hn
    cases h
    exact ⟨hv, hn, rfl⟩
  · rintro ⟨hv, hn, rfl⟩
    rw [hv]
    exact if_neg hn

theorem foldlM_addDirectory_eq_ok {xs : List (Directory × Nat)} :
    xs.foldlM (addDirectory k) dirs = .ok dirs' ↔ (∀ x ∈ xs, ValidDirectory x.1) ∧
      (xs.map fun x => k.directoryDigest x.1).Nodup ∧
      (∀ x ∈ xs, k.directoryDigest x.1 ∉ dirs.keys) ∧
      dirs' = xs.foldl (fun m x => m.insert (k.directoryDigest x.1) x.1) dirs := by
  induction xs generalizing dirs with
  | nil =>
    rw [foldlM_nil, Guards.pure_eq_ok]
    simp [eq_comm]
  | cons x xs ih =>
    rw [foldlM_cons, Guards.bind_eq_ok]
    simp only [addDirectory_eq_ok, ih, forall_mem_cons, List.map_cons, nodup_cons, mem_map,
      not_exists, not_and, Finmap.mem_keys]
    constructor
    · rintro ⟨_, ⟨hx, hnew, rfl⟩, hxs, hnd, hn, rfl⟩
      simp only [Finmap.mem_insert, not_or] at hn
      exact ⟨⟨hx, hxs⟩, ⟨fun y hy => (hn y hy).1, hnd⟩, ⟨hnew, fun y hy => (hn y hy).2⟩, rfl⟩
    · rintro ⟨⟨hx, hxs⟩, ⟨hne, hnd⟩, ⟨hnew, hn⟩, rfl⟩
      refine ⟨_, ⟨hx, hnew, rfl⟩, hxs, hnd, fun y hy => ?_, rfl⟩
      rw [Finmap.mem_insert, not_or]
      exact ⟨hne y hy, hn y hy⟩

structure Collected (k : Codec) (ds : List Directory) (dirs : Map Digest Directory) : Prop where
  valid : ∀ d ∈ ds, ValidDirectory d
  nodup : (ds.map k.directoryDigest).Nodup
  lookup : ∀ x d, dirs.lookup x = some d ↔ d ∈ ds ∧ k.directoryDigest d = x

def bodyMap (k : Codec) (ds : List Directory) : Map Digest Directory :=
  ds.foldl (fun m d => m.insert (k.directoryDigest d) d) ∅

theorem lookup_bodyMap (h : (ds.map k.directoryDigest).Nodup) (x : Digest) (d : Directory) :
    (bodyMap k ds).lookup x = some d ↔ d ∈ ds ∧ k.directoryDigest d = x := by
  rw [bodyMap, Map.lookup_foldl_insert, Finmap.lookup_empty, Option.or_none, Option.map_id']
  constructor
  · exact Map.mem_of_getLast?_filter
  · rintro ⟨hd, rfl⟩
    cases hl : (ds.filter (k.directoryDigest · = k.directoryDigest d)).getLast? with
    | none => exact absurd rfl (Map.getLast?_filter_eq_none.mp hl d hd)
    | some d' =>
      obtain ⟨hd', heq⟩ := Map.mem_of_getLast?_filter hl
      rw [inj_on_of_nodup_map h hd' hd heq]

theorem collectDirectories_eq_ok :
    collectDirectories k ds = .ok dirs ↔ (∀ d ∈ ds, ValidDirectory d) ∧
      (ds.map k.directoryDigest).Nodup ∧ dirs = bodyMap k ds := by
  have hf := zipIdx_map_fst 0 ds
  have hv : (∀ x ∈ ds.zipIdx, ValidDirectory x.1) ↔ ∀ d ∈ ds, ValidDirectory d := by
    rw [← forall_mem_map, hf]
  have hm : (ds.zipIdx.map fun x => k.directoryDigest x.1) = ds.map k.directoryDigest := by
    rw [← hf, map_map]
    simp
  have hfo : ds.zipIdx.foldl (fun m x => m.insert (k.directoryDigest x.1) x.1) ∅ =
      bodyMap k ds := by
    rw [bodyMap, ← hf, foldl_map]
    simp
  rw [collectDirectories, foldlM_addDirectory_eq_ok, hv, hm, hfo]
  simp

def Refers (dirs : Map Digest Directory) (x y : Digest) : Prop :=
  ∃ d, dirs.lookup x = some d ∧ ∃ e ∈ d.directories, e.digest = y.1

def IsRoot (outputs : List ValidatedOutput) (x : Digest) : Prop :=
  ∃ out ∈ outputs, out.rootNode = .dirDigest x.1

theorem mem_childDigests : y ∈ childDigests d ↔ ∃ e ∈ d.directories, e.digest = y.1 := by
  simp [childDigests, toDigest_eq_some]

theorem succ_iff : Search.Succ (successors dirs) x y ↔ Refers dirs x y := by
  unfold Search.Succ successors Refers
  simp only [Option.map_eq_some_iff]
  constructor
  · rintro ⟨_, ⟨d, hd, rfl⟩, hy⟩
    exact ⟨d, hd, mem_childDigests.mp hy⟩
  · rintro ⟨d, hd, hy⟩
    exact ⟨_, ⟨d, hd, rfl⟩, mem_childDigests.mpr hy⟩

structure RootsAdded (dirs : Map Digest Directory) (outs : List ValidatedOutput)
    (x : Finset Digest × List Digest) : Prop where
  seen : ∀ y, y ∈ x.1 ↔ IsRoot outs y
  stack : ∀ y, y ∈ x.2 ↔ y ∈ x.1
  nodup : x.2.Nodup
  found : ∀ y ∈ x.1, y ∈ dirs.keys

theorem isRoot_concat :
    IsRoot (outs ++ [out]) x ↔ IsRoot outs x ∨ out.rootNode = .dirDigest x.1 := by
  simp [IsRoot]

theorem RootsAdded.addRoot (h : RootsAdded dirs outs st) (ho : addRoot dirs st out = .ok st') :
    RootsAdded dirs (outs ++ [out.1]) st' := by
  unfold Chunked.addRoot at ho
  split at ho
  · rename_i d hr
    split at ho
    · cases ho
    rename_i digest hd
    rw [toDigest_eq_some] at hd
    subst hd
    have hn : ∀ y, IsRoot (outs ++ [out.1]) y ↔ IsRoot outs y ∨ y = digest := by
      intro y
      rw [isRoot_concat, hr, RootNode.dirDigest.injEq, ← Subtype.ext_iff, eq_comm]
    split at ho
    · cases ho
    rename_i hf
    split_ifs at ho with hm
    · cases ho
      refine ⟨fun y => ?_, h.stack, h.nodup, h.found⟩
      rw [hn, h.seen]
      refine ⟨.inl, fun hy => hy.elim id ?_⟩
      rintro rfl
      exact (h.seen _).mp hm
    · cases ho
      refine ⟨fun y => ?_, fun y => ?_, ?_, fun y hy => ?_⟩
      · rw [hn, Finset.mem_insert, h.seen, or_comm]
      · rw [mem_cons, Finset.mem_insert, h.stack]
      · exact nodup_cons.mpr ⟨fun hy => hm ((h.stack _).mp hy), h.nodup⟩
      · rcases Finset.mem_insert.mp hy with rfl | hy
        · exact not_not.mp hf
        · exact h.found y hy
  · rename_i hr
    cases ho
    refine ⟨fun y => ?_, h.stack, h.nodup, h.found⟩
    rw [isRoot_concat, h.seen]
    exact ⟨.inl, fun hy => hy.elim id fun hy => absurd hy (hr y.1)⟩

variable {xs : List (ValidatedOutput × Nat)}

theorem RootsAdded.foldlM (h : RootsAdded dirs outs st)
    (ho : xs.foldlM (Chunked.addRoot dirs) st = .ok st') :
    RootsAdded dirs (outs ++ xs.map Prod.fst) st' := by
  induction xs generalizing outs st with
  | nil =>
    cases ho
    simpa using h
  | cons x xs ih =>
    rw [foldlM_cons, Guards.bind_eq_ok] at ho
    obtain ⟨st1, hs1, ho⟩ := ho
    have := ih (h.addRoot hs1) ho
    rwa [append_assoc] at this

theorem exists_foldlM_addRoot
    (h : ∀ x ∈ xs, ∀ d, x.1.rootNode = .dirDigest d → ∃ digest ∈ dirs.keys, d = digest.1)
    (st : Finset Digest × List Digest) : ∃ st', xs.foldlM (addRoot dirs) st = .ok st' := by
  induction xs generalizing st with
  | nil => exact ⟨st, rfl⟩
  | cons x xs ih =>
    obtain ⟨hx, hxs⟩ := forall_mem_cons.mp h
    obtain ⟨st1, hs1⟩ : ∃ st1, addRoot dirs st x = .ok st1 := by
      unfold addRoot
      split
      · rename_i d hr
        obtain ⟨digest, hm, rfl⟩ := hx d hr
        rw [toDigest_eq_some.mpr rfl]
        dsimp only
        rw [if_neg (not_not.mpr hm)]
        split
        all_goals exact ⟨_, rfl⟩
      · exact ⟨_, rfl⟩
    obtain ⟨st', hs'⟩ := ih hxs st1
    exact ⟨st', by rw [foldlM_cons, hs1]; exact hs'⟩

theorem RootsAdded.visiting (h : RootsAdded dirs outputs st) :
    Search.Visiting (successors dirs) { x | IsRoot outputs x } st.1 st.2 where
  searched := by
    refine ⟨fun x hx => (h.seen x).mpr hx, fun x hx => ⟨x, (h.seen x).mp hx, .refl⟩, ?_⟩
    rintro x ⟨hx, hs⟩
    exact absurd ((h.stack x).mpr hx) hs
  stack_subset := fun x hx => (h.stack x).mp hx
  nodup := h.nodup
  found := fun x hx hs => absurd ((h.stack x).mpr hx) hs

theorem mem_mentioned (hx : Refers dirs x y) : y ∈ (mentioned dirs).toFinset := by
  obtain ⟨d, hd, hy⟩ := hx
  rw [mem_toFinset, mentioned, mem_flatMap]
  exact ⟨(x, d), mem_sortedRows.mpr hd, mem_childDigests.mpr hy⟩

def Reached (outputs : List ValidatedOutput) (dirs : Map Digest Directory) (x : Digest) : Prop :=
  ∃ r, IsRoot outputs r ∧ Relation.ReflTransGen (Refers dirs) r x

theorem reached_iff :
    (∃ s ∈ { x | IsRoot outputs x }, Relation.ReflTransGen (Search.Succ (successors dirs)) s x) ↔
      Reached outputs dirs x := by
  have hs : Search.Succ (successors dirs) = Refers dirs :=
    funext₂ fun x y => propext succ_iff
  rw [hs]
  rfl

theorem RootsAdded.ended (h : RootsAdded dirs outputs st) :
    Search.Ended (successors dirs) { x | IsRoot outputs x }
      (Search.visit (successors dirs) ((mentioned dirs).length + st.2.length) st.1 st.2) := by
  refine h.visiting.visit (mentioned dirs).toFinset ?_ ?_
  · intro x next hx y hy
    exact mem_mentioned (succ_iff.mp ⟨next, hx, hy⟩)
  · have hs : (mentioned dirs).toFinset \ st.1 ⊆ (mentioned dirs).toFinset :=
      Finset.sdiff_subset
    have := Finset.card_le_card hs
    have := toFinset_card_le (mentioned dirs)
    omega

theorem rootsAdded_nil : RootsAdded dirs [] (∅, []) :=
  ⟨by simp [IsRoot], by simp, nodup_nil, by simp⟩

theorem rootsAdded_of_ok (h : outputs.zipIdx.foldlM (addRoot dirs) (∅, []) = .ok st) :
    RootsAdded dirs outputs st := by
  have := rootsAdded_nil.foldlM h
  rwa [nil_append, zipIdx_map_fst] at this

theorem isSome_successors : (successors dirs x).isSome ↔ x ∈ dirs.keys := by
  rw [successors, Option.isSome_map, Finmap.lookup_isSome, Finmap.mem_keys]

theorem reachableDigests_sound (h : reachableDigests outputs dirs = .ok reached) :
    (∀ x, x ∈ reached ↔ Reached outputs dirs x) ∧ ∀ x ∈ reached, x ∈ dirs.keys := by
  unfold reachableDigests at h
  rw [Guards.bind_eq_ok] at h
  obtain ⟨st, hst, h⟩ := h
  have he := (rootsAdded_of_ok hst).ended
  split at h
  · simp at h
  · rename_i seen hs
    rw [hs] at he
    obtain rfl : seen = reached := Guards.pure_eq_ok.mp h
    refine ⟨fun x => he.mem_iff.trans reached_iff, fun x hx => ?_⟩
    exact isSome_successors.mp (he.found x hx not_mem_nil)

theorem reachableDigests_complete
    (hrt : ∀ out ∈ outputs, ∀ d, out.rootNode = .dirDigest d → ∃ digest : Digest, d = digest.1)
    (h : ∀ x, Reached outputs dirs x → x ∈ dirs.keys) :
    ∃ reached, reachableDigests outputs dirs = .ok reached := by
  obtain ⟨st, hs⟩ : ∃ st, outputs.zipIdx.foldlM (addRoot dirs) (∅, []) = .ok st := by
    refine exists_foldlM_addRoot (fun x hx d hr => ?_) _
    have ho : x.1 ∈ outputs := fst_mem_of_mem_zipIdx hx
    obtain ⟨digest, rfl⟩ := hrt x.1 ho d hr
    exact ⟨digest, h digest ⟨digest, ⟨x.1, ho, hr⟩, .refl⟩, rfl⟩
  have he := (rootsAdded_of_ok hs).ended
  unfold reachableDigests
  simp only [Guards.bind_eq_ok]
  cases hv : Search.visit (successors dirs) ((mentioned dirs).length + st.2.length) st.1 st.2 with
  | ok seen => exact ⟨seen, st, hs, by rw [hv]; rfl⟩
  | error x =>
    rw [hv] at he
    obtain ⟨hn, hre⟩ := he
    have := isSome_successors.mpr (h x (reached_iff.mp hre))
    rw [hn] at this
    cases this

end RioBuild.Chunked
