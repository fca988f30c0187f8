import RioBuild.Castore.Merkle

namespace RioBuild.Castore

open Lib Nar List NarLsEntry

variable {k : Codec} {pos : Nat} {kids f g : Entries FileRef} {b : List Bytes}

def dirIndex (pos : Nat) (kids : Entries FileRef) : List NarLsEntry :=
  dirEntry [] :: listing [] pos kids

def nodes (kids : Entries FileRef) : List (List Bytes × Option (Leaf FileRef)) :=
  ([], none) :: kids.preorder

structure Named (kids : Entries FileRef) : Prop where
  names : kids.All ValidName Leaf.Sized
  distinct : kids.Ordered (· ≠ ·)

theorem map_plain_dirIndex (pos : Nat) : (dirIndex pos kids).map plain =
    (nodes kids).map fun x => plainEntry (joinPath [] x.1) x.2 := by
  rw [dirIndex, List.map_cons, map_plain_listing]
  rfl

theorem map_path (l : List NarLsEntry) (xs : List (List Bytes × Option (Leaf FileRef)))
    (h : l.map plain = xs.map fun x => plainEntry (joinPath [] x.1) x.2) :
    l.map path = (xs.map Prod.fst).map (joinPath []) := by
  have hp : l.map path = (l.map plain).map path := by
    rw [map_map]
    rfl
  rw [hp, h, map_map, map_map]
  refine map_congr_left fun x _ => ?_
  exact path_plainEntry x.2

namespace Named

section

variable (h : Named kids)
include h

theorem valid (hx : x ∈ nodes kids) : ∀ n ∈ x.1, ValidName n := by
  rcases mem_cons.mp hx with rfl | hx
  · exact nofun
  · exact valid_of_mem_preorder h.names hx

theorem nodup_paths : ((dirIndex pos kids).map path).Nodup := by
  rw [map_path _ _ (map_plain_dirIndex _)]
  refine List.Nodup.map_on ?_ ?_
  · intro a ha b hb heq
    obtain ⟨x, hx, rfl⟩ := mem_map.mp ha
    obtain ⟨y, hy, rfl⟩ := mem_map.mp hb
    exact joinPath_inj (h.valid hx) (h.valid hy) heq
  · refine nodup_cons.mpr ⟨?_, h.distinct.nodup_preorder⟩
    intro hm
    obtain ⟨x, hx, hn⟩ := mem_map.mp hm
    exact Forest.ne_nil_of_mem_preorder hx hn

theorem parentPath_joinPath (hx : x ∈ kids.preorder) :
    parentPath (joinPath [] x.1) = joinPath [] x.1.dropLast ∧ joinPath [] x.1 ≠ [] ∧
      joinPath [] x.1 ≠ joinPath [] x.1.dropLast := by
  have hne := Forest.ne_nil_of_mem_preorder hx
  have hl := valid_of_mem_preorder h.names hx _ (getLast_mem hne)
  have heq : joinPath [] x.1 = childPath (joinPath [] x.1.dropLast) (x.1.getLast hne) := by
    rw [← joinPath_concat, dropLast_append_getLast]
  rw [heq]
  exact ⟨parentPath_childPath hl, childPath_ne_nil hl, childPath_ne_self hl⟩

theorem exists_node (he : e ∈ listing [] pos kids) : ∃ x ∈ kids.preorder, e.path = joinPath [] x.1 ∧
    parentPath e.path = joinPath [] x.1.dropLast := by
  have hm : plain e ∈ kids.preorder.map fun x => plainEntry (joinPath [] x.1) x.2 := by
    rw [← map_plain_listing pos]
    exact mem_map_of_mem he
  obtain ⟨x, hx, heq⟩ := mem_map.mp hm
  have hp : e.path = joinPath [] x.1 := by
    have := congrArg path heq
    rw [path_plainEntry] at this
    exact this.symm
  exact ⟨x, hx, hp, hp ▸ (h.parentPath_joinPath hx).1⟩

theorem exists_lookup_parent (he : e ∈ listing [] pos kids) :
    ∃ i, (pathToIdx (dirIndex pos kids)).lookup (parentPath e.path) = some i := by
  obtain ⟨x, hx, -, hpa⟩ := h.exists_node he
  have hm : parentPath e.path ∈ (dirIndex pos kids).map path := by
    rw [map_path _ _ (map_plain_dirIndex _), hpa]
    refine mem_map_of_mem ?_
    rcases Forest.dropLast_mem_preorder hx with hn | hm
    · rw [hn]
      exact mem_cons_self
    · exact mem_cons_of_mem _ (mem_map_of_mem hm)
  obtain ⟨e', he', hp⟩ := mem_map.mp hm
  obtain ⟨i, hi⟩ := mem_iff_getElem?.mp he'
  exact ⟨i, (lookup_pathToIdx h.nodup_paths).mpr ⟨e', mem_zipIdx_iff_getElem?.mpr hi, hp⟩⟩

end

end Named

def foundChildren (pos : Nat) (kids : Entries FileRef) (i : Nat) : List (NarLsEntry × Nat) :=
  ((dirIndex pos kids).zipIdx.drop 1).filter fun x =>
    (pathToIdx (dirIndex pos kids)).lookup (parentPath x.1.path) = some i

namespace Named

theorem mem_drop_zipIdx (hx : x ∈ (dirIndex pos kids).zipIdx.drop 1) :
    x.1 ∈ listing [] pos kids := by
  have hd : (dirIndex pos kids).zipIdx.drop 1 = (listing [] pos kids).zipIdx 1 := rfl
  exact fst_mem_of_mem_zipIdx hx

section

variable (h : Named kids)
include h

theorem childrenOf_eq : childrenOf (dirIndex pos kids) = some (foundChildren pos kids) := by
  unfold childrenOf
  rw [foldlM_group]
  · rfl
  · exact fun x hx => h.exists_lookup_parent (mem_drop_zipIdx hx)

theorem foundChildren_eq (he : (e, i) ∈ (dirIndex pos kids).zipIdx) : foundChildren pos kids i =
    ((dirIndex pos kids).zipIdx.drop 1).filter fun x => parentPath x.1.path = e.path := by
  refine filter_congr fun x _ => ?_
  rw [decide_eq_decide, lookup_pathToIdx h.nodup_paths]
  constructor
  · rintro ⟨e', he', hp⟩
    have hs : e = e' := by
      rw [mem_zipIdx_iff_getElem?] at he he'
      exact Option.some.inj (he.symm.trans he')
    rw [← hp, hs]
  · exact fun hp => ⟨e, he, hp.symm⟩

section

variable (hsub : b = [] ∧ g = kids ∨ kids.SubDir b g)
include hsub

theorem filter_preorder_eq :
    kids.preorder.filter (·.1.dropLast = b) = g.tops.map fun x => (b ++ [x.1], x.2) := by
  rcases hsub with ⟨rfl, rfl⟩ | hsub
  · exact Forest.filter_tops
  · exact hsub.filter_preorder h.distinct

theorem valid_address : ∀ n ∈ b, ValidName n := by
  rcases hsub with ⟨rfl, rfl⟩ | hsub
  · exact nofun
  · exact valid_of_mem_preorder h.names hsub.mem_preorder

theorem map_plain_foundChildren
    (he : (e, i) ∈ (dirIndex pos kids).zipIdx) (hpa : e.path = joinPath [] b) :
    (foundChildren pos kids i).map (fun x => plain x.1) =
      g.tops.map fun y => plainEntry (joinPath [] (b ++ [y.1])) y.2 := by
  have hd : ((dirIndex pos kids).zipIdx.drop 1).map (fun x => plain x.1) =
      kids.preorder.map fun x => plainEntry (joinPath [] x.1) x.2 := by
    rw [← map_plain_listing pos, ← zipIdx_map_fst 1 (listing [] pos kids), map_map]
    rfl
  have hf : ((dirIndex pos kids).zipIdx.drop 1).filter
        (fun x => decide (parentPath x.1.path = e.path)) =
      ((dirIndex pos kids).zipIdx.drop 1).filter
        ((fun y : NarLsEntry => decide (parentPath y.path = e.path)) ∘ fun x => plain x.1) := rfl
  have hp : kids.preorder.filter ((fun y : NarLsEntry => decide (parentPath y.path = e.path)) ∘
        fun x => plainEntry (joinPath [] x.1) x.2) = kids.preorder.filter (·.1.dropLast = b) := by
    refine filter_congr fun x hx => ?_
    simp only [Function.comp_apply, path_plainEntry]
    rw [decide_eq_decide, hpa, (h.parentPath_joinPath hx).1]
    refine ⟨fun heq => ?_, fun heq => by rw [heq]⟩
    refine joinPath_inj (fun n hn => ?_) (h.valid_address hsub) heq
    exact valid_of_mem_preorder h.names hx n (mem_of_mem_dropLast hn)
  rw [h.foundChildren_eq he, hf, ← filter_map, hd, filter_map, hp,
    h.filter_preorder_eq hsub, map_map]
  rfl

end

theorem pairwise_paths (pos : Nat) :
    ((dirIndex pos kids).map path).Pairwise fun p q => parentPath p ≠ q := by
  rw [map_path _ _ (map_plain_dirIndex _), pairwise_map]
  refine .cons (fun y hy heq => ?_) ?_
  · obtain ⟨x, hx, rfl⟩ := mem_map.mp hy
    exact (h.parentPath_joinPath hx).2.1 heq.symm
  · refine h.distinct.pairwise_preorder.imp_of_mem fun {a c} ha hc hne heq => hne ?_
    obtain ⟨x, hx, rfl⟩ := mem_map.mp ha
    obtain ⟨y, hy, rfl⟩ := mem_map.mp hc
    rw [(h.parentPath_joinPath hx).1] at heq
    refine joinPath_inj (fun n hn => ?_) (valid_of_mem_preorder h.names hy) heq
    exact valid_of_mem_preorder h.names hx n (mem_of_mem_dropLast hn)

theorem lt_of_mem_foundChildren (he : (e, i) ∈ (dirIndex pos kids).zipIdx)
    (hc : c ∈ foundChildren pos kids i) : i < c.2 := by
  rw [h.foundChildren_eq he, mem_filter] at hc
  obtain ⟨hd, hp⟩ := hc
  have hp : parentPath c.1.path = e.path := by simpa using hp
  have hm := mem_zipIdx_iff_getElem?.mp (mem_of_mem_drop hd)
  rw [mem_zipIdx_iff_getElem?] at he
  dsimp only at he
  rcases lt_trichotomy i c.2 with hlt | heq | hgt
  · exact hlt
  · have hs : e = c.1 := by
      rw [heq] at he
      exact Option.some.inj (he.symm.trans hm)
    obtain ⟨x, hx, hpat, hjo⟩ := h.exists_node (mem_drop_zipIdx hd)
    rw [hs] at hp
    exact absurd (hpat.symm.trans (hp.symm.trans hjo)) (h.parentPath_joinPath hx).2.2
  · have hpai := pairwise_map.mp (h.pairwise_paths pos)
    obtain ⟨hi, rfl⟩ := List.getElem?_eq_some_iff.mp he
    obtain ⟨hj, hcj⟩ := List.getElem?_eq_some_iff.mp hm
    rw [← hcj] at hp
    exact absurd hp (pairwise_iff_getElem.mp hpai _ _ hj hi hgt)

end

end Named

def mergeParts (a b : Directory × UInt64) : Directory × UInt64 :=
  ({ directories := a.1.directories ++ b.1.directories
     files := a.1.files ++ b.1.files
     symlinks := a.1.symlinks ++ b.1.symlinks }, a.2 + b.2)

theorem mergeParts_empty (a : Directory × UInt64) : mergeParts a ({}, 0) = a := by
  simp [mergeParts]

theorem empty_mergeParts : mergeParts ({}, 0) a = a := by
  simp [mergeParts]

theorem merkle_regular : mergeParts a (k.merkle (.leaf name (.regular ref x) rest)) =
    mergeParts ({ a.1 with files := a.1.files ++ [⟨name, ref.1.1, ref.2, x⟩] }, a.2 + 1)
      (k.merkle rest) := by
  simp [mergeParts, Codec.merkle, add_assoc]

theorem merkle_symlink (name target : Bytes) :
    mergeParts a (k.merkle (.leaf name (.symlink target) rest)) =
      mergeParts ({ a.1 with symlinks := a.1.symlinks ++ [⟨name, target⟩] }, a.2 + 1)
        (k.merkle rest) := by
  simp [mergeParts, Codec.merkle, add_assoc]

theorem merkle_dir : mergeParts a (k.merkle (.dir name f rest)) = mergeParts
      ({ a.1 with
          directories := a.1.directories ++
            [⟨name, (k.directoryDigest (k.merkle f).1).1, (k.merkle f).2⟩] },
        a.2 + 1 + (k.merkle f).2)
      (k.merkle rest) := by
  simp [mergeParts, Codec.merkle, add_assoc]

theorem mem_of_foundChildren (h : c ∈ foundChildren pos kids i) : c ∈ (dirIndex pos kids).zipIdx :=
  mem_of_mem_drop (mem_of_mem_filter h)

theorem foldl_addChild (h : Named kids)
    (hso : ∀ x ∈ (dirIndex pos kids).zipIdx, Solved k (foundChildren pos kids) st x)
    (hg : g.All ValidName Leaf.Sized) (hsub : ∀ b' g', g.SubDir b' g' → kids.SubDir (b ++ b') g')
    {cs : List (NarLsEntry × Nat)} (hcs : ∀ c ∈ cs, c ∈ (dirIndex pos kids).zipIdx)
    (hp : cs.map (fun x => plain x.1) =
      g.tops.map fun y => plainEntry (joinPath [] (b ++ [y.1])) y.2) (a : Directory × UInt64) :
    cs.foldl (addChild st) a = mergeParts a (k.merkle g) := by
  induction g generalizing b cs a with
  | nil =>
    rw [map_eq_nil_iff.mp hp]
    exact (mergeParts_empty a).symm
  | leaf name l rest ih =>
    obtain ⟨hn, -, hr⟩ := hg
    cases cs with
    | nil => cases hp
    | cons c cs =>
      obtain ⟨hc, hl⟩ := forall_mem_cons.mp hcs
      obtain ⟨hh, ht⟩ := cons.inj hp
      have hsub' : ∀ b' g', rest.SubDir b' g' → kids.SubDir (b ++ b') g' :=
        fun b' g' hg' => hsub b' g' (.afterLeaf hg')
      obtain ⟨⟨path, kind, size, executable, offset, target, digest⟩, j⟩ := c
      rw [foldl_cons, ih hr hsub' hl ht]
      cases l with
      | regular ref x =>
        cases hh
        rw [merkle_regular]
        simp [addChild, basename_childPath hn]
      | symlink t =>
        cases hh
        rw [merkle_symlink]
        simp [addChild, basename_childPath hn]
  | dir name f rest ihf ih =>
    obtain ⟨hn, hf, hr⟩ := hg
    cases cs with
    | nil => cases hp
    | cons c cs =>
      obtain ⟨hc, hl⟩ := forall_mem_cons.mp hcs
      obtain ⟨hh, ht⟩ := cons.inj hp
      have hsub' : ∀ b' g', rest.SubDir b' g' → kids.SubDir (b ++ b') g' :=
        fun b' g' hg' => hsub b' g' (.afterDir hg')
      have hs : ∀ b' g', f.SubDir b' g' → kids.SubDir (b ++ [name] ++ b') g' := by
        intro b' g' hg'
        rw [append_assoc]
        exact hsub _ g' (.inside hg')
      obtain ⟨⟨path, kind, size, executable, offset, target, digest⟩, j⟩ := c
      rw [foldl_cons, ih hr hsub' hl ht]
      cases hh
      have hfd := h.map_plain_foundChildren (.inr (hsub _ _ .here)) hc rfl
      have hb : assemble st (foundChildren pos kids j) = k.merkle f := by
        refine (ihf hf hs (fun _ => mem_of_foundChildren) hfd _).trans ?_
        exact empty_mergeParts
      obtain ⟨hd, hsz⟩ := hso _ hc rfl
      rw [hb] at hd hsz
      rw [merkle_dir]
      simp [addChild, basename_childPath hn, hd, hsz]

theorem exists_subDir_of_mem (he : (e, i) ∈ (dirIndex pos kids).zipIdx) (hk : e.kind = .directory) :
    ∃ b g, (b = [] ∧ g = kids ∨ kids.SubDir b g) ∧ e.path = joinPath [] b := by
  have hm : plain e ∈ (nodes kids).map fun x => plainEntry (joinPath [] x.1) x.2 := by
    rw [← map_plain_dirIndex pos]
    exact mem_map_of_mem (fst_mem_of_mem_zipIdx he)
  obtain ⟨⟨b, o⟩, hx, heq⟩ := mem_map.mp hm
  have hp : e.path = joinPath [] b := by
    have := congrArg path heq
    rw [path_plainEntry] at this
    exact this.symm
  cases o with
  | some l =>
    have := congrArg kind heq
    cases l <;> cases this.trans hk
  | none =>
    rcases mem_cons.mp hx with hn | hx
    · cases hn
      exact ⟨[], kids, .inl ⟨rfl, rfl⟩, hp⟩
    · obtain ⟨g, hg⟩ := Forest.exists_subDir hx
      exact ⟨b, g, .inr hg, hp⟩

theorem mem_subBodies : d ∈ k.subBodies f ↔ ∃ b g, f.SubDir b g ∧ (k.merkle g).1 = d := by
  induction f with
  | nil =>
    refine iff_of_false nofun ?_
    rintro ⟨b, g, hg, -⟩
    cases hg
  | leaf name l rest ih =>
    rw [Codec.subBodies, ih]
    constructor
    · rintro ⟨b, g, hg, rfl⟩
      exact ⟨b, g, .afterLeaf hg, rfl⟩
    · rintro ⟨b, g, hg, rfl⟩
      cases hg with
      | afterLeaf hg => exact ⟨b, g, hg, rfl⟩
  | dir name f rest ihf ih =>
    rw [Codec.subBodies, mem_cons, mem_append, ihf, ih]
    constructor
    · rintro (rfl | ⟨b, g, hg, rfl⟩ | ⟨b, g, hg, rfl⟩)
      · exact ⟨[name], f, .here, rfl⟩
      · exact ⟨name :: b, g, .inside hg, rfl⟩
      · exact ⟨b, g, .afterDir hg, rfl⟩
    · rintro ⟨b, g, hg, rfl⟩
      cases hg with
      | here => exact .inl rfl
      | inside hg => exact .inr (.inl ⟨_, g, hg, rfl⟩)
      | afterDir hg => exact .inr (.inr ⟨b, g, hg, rfl⟩)

namespace Named

theorem all_subDir (hf : f.All ValidName q) (h : f.SubDir b g) : g.All ValidName q := by
  induction h with
  | here => exact hf.2.1
  | inside _ ih => exact ih hf.2.1
  | afterLeaf _ ih | afterDir _ ih => exact ih hf.2.2

section

variable (h : Named kids)
include h

theorem solved_built : (∀ x ∈ (dirIndex pos kids).zipIdx, Solved k (foundChildren pos kids)
      (buildDirs k (dirIndex pos kids) (foundChildren pos kids)) x) ∧
    ∀ d, d ∈ (buildDirs k (dirIndex pos kids) (foundChildren pos kids)).built ↔
      ∃ x ∈ (dirIndex pos kids).zipIdx, x.1.kind = .directory ∧
        (assemble (buildDirs k (dirIndex pos kids) (foundChildren pos kids))
          (foundChildren pos kids x.2)).1 = d := by
  refine solved_foldr ?_ fun _ hy _ hc => h.lt_of_mem_foundChildren hy hc
  rw [← pairwise_map, zipIdx_map_snd]
  exact pairwise_lt_range'

theorem assemble_eq (hsub : b = [] ∧ g = kids ∨ kids.SubDir b g)
    (he : (e, i) ∈ (dirIndex pos kids).zipIdx) (hp : e.path = joinPath [] b) :
    assemble (buildDirs k (dirIndex pos kids) (foundChildren pos kids))
      (foundChildren pos kids i) = k.merkle g := by
  have hg : g.All ValidName Leaf.Sized ∧ ∀ b' g', g.SubDir b' g' → kids.SubDir (b ++ b') g' := by
    rcases hsub with ⟨rfl, rfl⟩ | hsub
    · exact ⟨h.names, fun _ _ hg' => hg'⟩
    · exact ⟨all_subDir h.names hsub, fun _ _ hg' => hsub.trans hg'⟩
  refine (foldl_addChild h h.solved_built.1 hg.1 hg.2 (fun _ => mem_of_foundChildren)
    (h.map_plain_foundChildren hsub he hp) _).trans ?_
  exact empty_mergeParts

theorem mem_built : d ∈ (buildDirs k (dirIndex pos kids) (foundChildren pos kids)).built ↔
    d ∈ k.bodies (.dir kids) := by
  rw [h.solved_built.2, Codec.bodies, mem_cons, mem_subBodies]
  constructor
  · rintro ⟨⟨e, i⟩, he, hk, rfl⟩
    obtain ⟨b, g, hsub, hp⟩ := exists_subDir_of_mem he hk
    rw [h.assemble_eq hsub he hp]
    rcases hsub with ⟨-, rfl⟩ | hsub
    · exact .inl rfl
    · exact .inr ⟨b, g, hsub, rfl⟩
  · rintro (rfl | ⟨b, g, hsub, rfl⟩)
    · refine ⟨(dirEntry [], 0), mem_cons_self, rfl, ?_⟩
      rw [h.assemble_eq (.inl ⟨rfl, rfl⟩) mem_cons_self rfl]
    · have hm : dirEntry (joinPath [] b) ∈ (dirIndex pos kids).map plain := by
        rw [map_plain_dirIndex]
        exact mem_map.mpr ⟨(b, none), mem_cons_of_mem _ hsub.mem_preorder, rfl⟩
      obtain ⟨e, he, heq⟩ := mem_map.mp hm
      obtain ⟨i, hi⟩ := mem_iff_getElem?.mp he
      have hei : (e, i) ∈ (dirIndex pos kids).zipIdx := mem_zipIdx_iff_getElem?.mpr hi
      refine ⟨(e, i), hei, congrArg kind heq, ?_⟩
      rw [h.assemble_eq (.inr hsub) hei (congrArg path heq)]

theorem dirDigests_zero : (buildDirs k (dirIndex pos kids) (foundChildren pos kids)).dirDigests 0 =
    k.directoryDigest (k.merkle kids).1 := by
  have hr : (dirEntry [], 0) ∈ (dirIndex pos kids).zipIdx := mem_cons_self
  rw [(h.solved_built.1 _ hr rfl).1, h.assemble_eq (.inl ⟨rfl, rfl⟩) hr rfl]

end

end Named

def Codec.rootNode (k : Codec) : Nar.Node FileRef → RootNode
  | .dir kids => .dirDigest (k.directoryDigest (k.merkle kids).1).1
  | .leaf (.regular ref x) => .file ⟨[], ref.1.1, ref.2, x⟩
  | .leaf (.symlink target) => .symlink ⟨[], target⟩

def Codec.rootDigest (k : Codec) : Nar.Node FileRef → Bytes
  | .dir kids => (k.directoryDigest (k.merkle kids).1).1
  | .leaf _ => []

def NodeNamed : Nar.Node FileRef → Prop
  | .dir kids => Named kids
  | .leaf _ => True

theorem mem_sortedRows : x ∈ sortedRows m ↔ m.lookup x.1 = some x.2 := by
  obtain ⟨d, v⟩ := x
  simp only [sortedRows, mem_filterMap, Option.map_eq_some_iff, Prod.mk.injEq]
  constructor
  · rintro ⟨d', -, v', hv, rfl, rfl⟩
    exact hv
  · intro hv
    refine ⟨d, ?_, v, hv, rfl, rfl⟩
    rw [Finset.mem_sort, Finmap.mem_keys, ← Finmap.lookup_isSome, hv]
    rfl

theorem lookup_foldl_addBody (ds : List Directory) : (ds.foldl (addBody k) m).lookup d =
    (m.lookup d).or ((ds.find? (k.directoryDigest · = d)).map k.encodeDirectory) := by
  induction ds generalizing m with
  | nil => simp
  | cons x ds ih =>
    rw [foldl_cons, ih, addBody]
    by_cases hm : k.directoryDigest x ∈ m.keys
    · rw [if_pos hm]
      by_cases hx : k.directoryDigest x = d
      · rw [hx, Finmap.mem_keys, ← Finmap.lookup_isSome] at hm
        obtain ⟨v, hv⟩ := Option.isSome_iff_exists.mp hm
        rw [hv]
        rfl
      · rw [find?_cons_of_neg (by simpa using hx)]
    · rw [if_neg hm, Map.lookup_insert_ite]
      by_cases hx : d = k.directoryDigest x
      · have hn : m.lookup d = none := by
          rw [hx]
          exact Finmap.lookup_eq_none.mpr hm
        rw [if_pos hx, hn, find?_cons_of_pos (by simpa using hx.symm)]
        rfl
      · rw [if_neg hx, find?_cons_of_neg (by simpa using Ne.symm hx)]

structure Built (k : Codec) (t : Nar.Node FileRef) (dag : DirectoryDag) : Prop where
  rootDigest : dag.rootDigest = k.rootDigest t
  rootNode : dag.rootNode = k.encodeRootNode (k.rootNode t)
  rows : ∀ row ∈ dag.directories, ∃ d ∈ k.bodies t, row = (k.directoryDigest d, k.encodeDirectory d)
  complete : ∀ d ∈ k.bodies t, ∃ body, (k.directoryDigest d, body) ∈ dag.directories
  blobs : dag.fileBlobs = sortedRows ((index t).foldl addBlob (∅, 0)).1

variable {t : Nar.Node FileRef}

theorem rows_of_built {ds : List Directory} (h : ∀ d, d ∈ ds ↔ d ∈ k.bodies t) :
    (∀ row ∈ sortedRows (ds.foldl (addBody k) ∅), ∃ d ∈ k.bodies t,
      row = (k.directoryDigest d, k.encodeDirectory d)) ∧
    ∀ d ∈ k.bodies t, ∃ body,
      (k.directoryDigest d, body) ∈ sortedRows (ds.foldl (addBody k) ∅) := by
  constructor
  · intro row hr
    rw [mem_sortedRows, lookup_foldl_addBody, Finmap.lookup_empty, Option.none_or,
      Option.map_eq_some_iff] at hr
    obtain ⟨d, hd, hb⟩ := hr
    have hdg : k.directoryDigest d = row.1 := by simpa using find?_some hd
    exact ⟨d, (h d).mp (mem_of_find?_eq_some hd), Prod.ext hdg.symm hb.symm⟩
  · intro d hd
    cases hf : ds.find? (k.directoryDigest · = k.directoryDigest d) with
    | none => exact absurd (find?_eq_none.mp hf d ((h d).mpr hd)) (by simp)
    | some d' =>
      refine ⟨k.encodeDirectory d', mem_sortedRows.mpr ?_⟩
      rw [lookup_foldl_addBody, hf]
      rfl

theorem Named.build_eq (h : Named kids) (pos : Nat) : build k (dirIndex pos kids) = some
    { directories := sortedRows ((buildDirs k (dirIndex pos kids)
        (foundChildren pos kids)).built.foldl (addBody k) ∅)
      fileBlobs := sortedRows ((dirIndex pos kids).foldl addBlob (∅, 0)).1
      rootNode := k.encodeRootNode (k.rootNode (.dir kids))
      rootDigest := k.rootDigest (.dir kids)
      dirDigests := (range (dirIndex pos kids).length).map
        (buildDirs k (dirIndex pos kids) (foundChildren pos kids)).dirDigests } := by
  have hr : rootNodeOf (buildDirs k (dirIndex pos kids) (foundChildren pos kids))
      (dirEntry []) = k.rootNode (.dir kids) := by
    rw [rootNodeOf, h.dirDigests_zero]
    rfl
  unfold build
  rw [h.childrenOf_eq]
  dsimp only [dirIndex, head?_cons]
  rw [← dirIndex, hr, h.dirDigests_zero]
  rfl

theorem build_index (h : NodeNamed t) : ∃ dag, build k (index t) = some dag ∧ Built k t dag ∧
    ∀ d, d ∈ builtDirectories k (index t) ↔ d ∈ k.bodies t := by
  cases t with
  | leaf l =>
    have hno : ∀ d, d ∈ [] ↔ d ∈ k.bodies (.leaf l) := fun d => Iff.rfl
    obtain ⟨hr, hc⟩ := rows_of_built hno
    cases l with
    | regular ref x | symlink target => exact ⟨_, rfl, ⟨rfl, rfl, hr, hc, rfl⟩, hno⟩
  | dir kids =>
    have hn : Named kids := h
    obtain ⟨hr, hc⟩ := rows_of_built fun d => hn.mem_built
    refine ⟨_, hn.build_eq _, ⟨rfl, rfl, hr, hc, rfl⟩, fun d => ?_⟩
    have hi : index (.dir kids) = dirIndex
      (Frame.magic.length + (Frame.nodeOpen.length + Frame.directoryOpen.length)) kids := rfl
    rw [builtDirectories, hi, hn.childrenOf_eq]
    exact hn.mem_built

end RioBuild.Castore
