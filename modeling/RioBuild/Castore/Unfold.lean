import RioBuild.Castore.BuildTree
import RioBuild.Castore.Codec
import RioBuild.Castore.WalkTree

namespace RioBuild.Castore

open Lib Nar List

variable {k : Codec} {dirs : Map Digest Directory} {f : Entries FileRef} {t : Nar.Node FileRef}

def Codec.children (k : Codec) : Entries FileRef → List Child
  | .nil => []
  | .leaf name (.regular ref executable) rest =>
    .file ⟨name, ref.1.1, ref.2, executable⟩ :: k.children rest
  | .leaf name (.symlink target) rest => .symlink ⟨name, target⟩ :: k.children rest
  | .dir name kids rest =>
    .dir ⟨name, (k.directoryDigest (k.merkle kids).1).1, (k.merkle kids).2⟩ :: k.children rest

def byKind (d : Directory) : List Child :=
  d.directories.map Child.dir ++ (d.files.map Child.file ++ d.symlinks.map Child.symlink)

theorem map_name_children : (k.children f).map Child.name = f.names := by
  induction f with
  | nil => rfl
  | leaf name l rest ih => cases l <;> exact congrArg (name :: ·) ih
  | dir name kids rest _ ih => exact congrArg (name :: ·) ih

theorem byKind_merkle_perm : (byKind (k.merkle f).1).Perm (k.children f) := by
  induction f with
  | nil => exact .nil
  | leaf name l rest ih =>
    cases l with
    | regular ref executable =>
      refine List.Perm.trans ?_ (ih.cons _)
      exact perm_middle
    | symlink target =>
      refine List.Perm.trans ?_ (ih.cons _)
      refine (List.Perm.append_left _ perm_middle).trans ?_
      exact perm_middle
  | dir name kids rest _ ih => exact ih.cons _

theorem pairwise_sortedChildren (d : Directory) :
    (sortedChildren d).Pairwise fun a b => a.name ≤ b.name := by
  exact pairwise_insertionSort _ _

theorem sortedChildren_eq (hp : (byKind d).Perm cs)
    (hc : (cs.map Child.name).Pairwise (· < ·)) : sortedChildren d = cs := by
  have hs : (sortedChildren d).Perm cs := (perm_insertionSort _ _).trans hp
  have hn : (cs.map Child.name).Nodup := hc.imp ne_of_lt
  refine hs.eq_of_pairwise ?_ (pairwise_sortedChildren d) ((pairwise_map.mp hc).imp le_of_lt)
  intro a b ha hb hab hba
  exact inj_on_of_nodup_map hn (hs.mem_iff.mp ha) hb (le_antisymm hab hba)

theorem sortedChildren_merkle (h : f.Ordered (· < ·)) :
    sortedChildren (k.merkle f).1 = k.children f := by
  refine sortedChildren_eq byKind_merkle_perm ?_
  rw [map_name_children]
  exact h.pairwise

theorem unfolds_children (hf : f.Ordered (· < ·))
    (h : ∀ d ∈ k.subBodies f, dirs.lookup (k.directoryDigest d) = some d) :
    Unfolds dirs (k.children f) f := by
  induction f with
  | nil => exact .nil
  | leaf name l rest ih =>
    cases l with
    | regular ref executable => exact .file (ih hf.2 h)
    | symlink target => exact .symlink (ih hf.2 h)
  | dir name kids rest ihk ih =>
    rw [Codec.subBodies, forall_mem_cons, forall_mem_append] at h
    obtain ⟨hd, hk, hr⟩ := h
    have hkd := ihk hf.2.1 hk
    rw [← sortedChildren_merkle hf.2.1] at hkd
    exact .dir hd hkd (ih hf.2.2 hr)

theorem rootUnfolds_rootNode (ht : t.Fits d)
    (h : ∀ d ∈ k.bodies t, dirs.lookup (k.directoryDigest d) = some d) :
    RootUnfolds dirs (k.rootNode t) t := by
  cases t with
  | leaf l =>
    cases l with
    | regular ref executable => exact .file
    | symlink target => exact .symlink
  | dir kids =>
    rw [Codec.bodies, forall_mem_cons] at h
    refine .dir h.1 ?_
    rw [sortedChildren_merkle ht.2.1]
    exact unfolds_children ht.2.1 h.2

def childPrefixLen (path : Bytes) : Nat := if path = [] then 0 else path.length + 1

theorem length_childPath : (childPath path name).length = childPrefixLen path + name.length := by
  unfold childPath childPrefixLen
  split
  · simp
  · simp only [length_append, length_cons]
    omega

theorem length_leaf_entry : (l.entry path pos).path.length + (l.entry path pos).target.length =
    path.length + leafTargetLen l := by
  cases l <;> rfl

theorem indexSize_listing (h : f.All ValidName q) :
    indexSize (listing path pos f) = pathBytes (childPrefixLen path) f := by
  induction f generalizing path pos with
  | nil => rfl
  | leaf name l rest ih =>
    rw [listing, indexSize_cons, length_leaf_entry, length_childPath, ih h.2.2, pathBytes]
  | dir name kids rest ihk ih =>
    have hp : childPrefixLen (childPath path name) = childPrefixLen path + name.length + 1 := by
      rw [childPrefixLen, if_neg (childPath_ne_nil h.1), length_childPath]
    rw [listing, indexSize_cons, indexSize_append, ihk h.2.1, ih h.2.2, hp, pathBytes]
    simp only [dirEntry, length_nil, length_childPath]
    omega

theorem indexSize_index_dir (h : f.All ValidName Leaf.Sized) :
    indexSize (index (.dir f)) = pathBytes 0 f := by
  rw [index, Node.listing, indexSize_cons, indexSize_listing h]
  simp [dirEntry, childPrefixLen]

theorem walkable_of_allowed (h : t.Allowed) (hm : maxNarEntries ≤ maxNodes) :
    Walkable maxNodes t := by
  have he := h.entries
  have hb := h.bytes
  cases t with
  | leaf l =>
    rw [index, Node.listing, indexSize_cons, length_leaf_entry] at hb
    refine ⟨hm.trans' (by decide), ?_⟩
    omega
  | dir kids =>
    obtain ⟨hn, -, hd⟩ := h.fits
    rw [indexSize_index_dir hn] at hb
    simp only [index, Node.listing, length_cons, length_listing] at he
    exact ⟨hd, by omega, hb⟩

theorem nodeNamed_of_fits (h : t.Fits d) : NodeNamed t := by
  cases t with
  | leaf l => trivial
  | dir kids => exact ⟨h.1, h.2.1.mono fun _ _ => ne_of_lt⟩

theorem Codec.Lossless.foldlM_decode (h : k.Lossless) (ds : List Directory)
    (m : Map Digest Directory) :
    (ds.map k.encodeDirectory).foldlM (fun dirs body => (k.decodeDirectory body).map fun dir =>
        dirs.insert (k.directoryDigest dir) dir) m =
      some (ds.foldl (fun dirs d => dirs.insert (k.directoryDigest d) d) m) := by
  induction ds generalizing m with
  | nil => rfl
  | cons d ds ih =>
    rw [List.map_cons, foldlM_cons, h.directory]
    exact ih _

theorem decodeDag_built (hk : k.Lossless) (hda : Built k t dag)
    (hi : ∀ d ∈ k.bodies t, ∀ d' ∈ k.bodies t, k.directoryDigest d = k.directoryDigest d' →
      k.encodeDirectory d = k.encodeDirectory d') :
    ∃ dirs, decodeDag k dag.rootNode (dag.directories.map Prod.snd) = some (k.rootNode t, dirs) ∧
      ∀ d ∈ k.bodies t, dirs.lookup (k.directoryDigest d) = some d := by
  obtain ⟨ds, hds, hr⟩ : ∃ ds : List Directory, (∀ d ∈ ds, d ∈ k.bodies t) ∧
      dag.directories = ds.map fun d => (k.directoryDigest d, k.encodeDirectory d) := by
    have hm : dag.directories ∈ Set.range (map fun d : { d // d ∈ k.bodies t } =>
        (k.directoryDigest d, k.encodeDirectory d)) := by
      rw [Set.range_list_map]
      intro row hrw
      obtain ⟨d, hd, rfl⟩ := hda.rows row hrw
      exact ⟨⟨d, hd⟩, rfl⟩
    obtain ⟨ds, hds⟩ := hm
    refine ⟨ds.map Subtype.val, ?_, ?_⟩
    · simp +contextual
    · rw [← hds, map_map]
      rfl
  have hbo : dag.directories.map Prod.snd = ds.map k.encodeDirectory := by
    rw [hr, map_map]
    rfl
  refine ⟨ds.foldl (fun dirs d => dirs.insert (k.directoryDigest d) d) ∅, ?_, fun d hd => ?_⟩
  · rw [decodeDag, hda.rootNode, hk.rootNode, hbo, hk.foldlM_decode]
    rfl
  · rw [Map.lookup_foldl_insert, Finmap.lookup_empty, Option.or_none, Option.map_id']
    cases hl : (ds.filter (k.directoryDigest · = k.directoryDigest d)).getLast? with
    | none =>
      obtain ⟨body, hb⟩ := hda.complete d hd
      rw [hr] at hb
      obtain ⟨d', hd', heq⟩ := mem_map.mp hb
      exact absurd (congrArg Prod.fst heq) (Map.getLast?_filter_eq_none.mp hl d' hd')
    | some d' =>
      obtain ⟨hd', heq⟩ := Map.mem_of_getLast?_filter hl
      rw [hk.encodeDirectory_inj (hi d' (hds d' hd') d hd heq)]

end RioBuild.Castore
