import RioBuild.Castore.Pieces
import RioBuild.Chunked.Entries
import RioBuild.Chunked.Graph
import RioBuild.Chunked.Reach
import RioBuild.Nar.Parse

namespace RioBuild.Chunked

open Lib Castore Nar List NarPieces

variable {k : Codec} {d : Directory} {f : Entries FileRef} {t : Nar.Node FileRef}

def ChildOk (c : Child) : Prop := ValidName c.name ∧ c.targetLen ≤ maxTargetLen

theorem childOk_of_mem (h : ValidDirectory d) (hc : c ∈ sortedChildren d) : ChildOk c := by
  have hc := (perm_sortedChildren d).mem_iff.mp hc
  refine ⟨h.names c.name ?_, ?_⟩
  · rw [← map_name_byKind]
    exact mem_map_of_mem hc
  · cases c with
    | dir e | file e => exact Nat.zero_le _
    | symlink e =>
      have hs := h.targets e (by simpa [byKind] using hc)
      simp only [validTarget, Bool.and_eq_true, decide_eq_true_eq] at hs
      exact hs.1.2

theorem map_name_of_unfolds (h : Unfolds dirs cs f) : f.names = cs.map Child.name := by
  induction h with
  | nil => rfl
  | dir _ _ _ _ ih | file _ ih | symlink _ ih => exact congrArg _ ih

def rootDirDigest : RootNode → Bytes
  | .dirDigest digest => digest
  | .unset | .file _ | .symlink _ => []

namespace Checked

theorem fits_of_unfolds (h : Checked k dirs) (hf : Unfolds dirs cs f)
    (hcs : ∀ c ∈ cs, ChildOk c) (hs : cs.Pairwise fun a b => a.name < b.name) :
    f.All ValidName Leaf.Sized ∧ f.Ordered (· < ·) := by
  induction hf with
  | nil => exact ⟨trivial, trivial⟩
  | dir hfd _ ha ihk ih =>
    obtain ⟨hc, hcs⟩ := forall_mem_cons.mp hcs
    obtain ⟨hlt, hs⟩ := pairwise_cons.mp hs
    have hv := h.valid _ _ hfd
    obtain ⟨hk, hko⟩ := ihk (fun c hc => childOk_of_mem hv hc) hv.pairwise_names
    obtain ⟨hr, hro⟩ := ih hcs hs
    refine ⟨⟨hc.1, hk, hr⟩, ?_, hko, hro⟩
    rw [map_name_of_unfolds ha]
    exact forall_mem_map.mpr hlt
  | file ha ih =>
    obtain ⟨hc, hcs⟩ := forall_mem_cons.mp hcs
    obtain ⟨hlt, hs⟩ := pairwise_cons.mp hs
    obtain ⟨hr, hro⟩ := ih hcs hs
    refine ⟨⟨hc.1, trivial, hr⟩, ?_, hro⟩
    rw [map_name_of_unfolds ha]
    exact forall_mem_map.mpr hlt
  | symlink ha ih =>
    obtain ⟨hc, hcs⟩ := forall_mem_cons.mp hcs
    obtain ⟨hlt, hs⟩ := pairwise_cons.mp hs
    obtain ⟨hr, hro⟩ := ih hcs hs
    refine ⟨⟨hc.1, hc.2, hr⟩, ?_, hro⟩
    rw [map_name_of_unfolds ha]
    exact forall_mem_map.mpr hlt

theorem allowed (h : Checked k dirs) (hr : decodeRootNode (some root) i = .ok root)
    (ht : RootUnfolds dirs root t) (hw : Walkable maxNarEntries t) : t.Allowed := by
  cases ht with
  | dir hf hb =>
    have hv := h.valid _ _ hf
    obtain ⟨hn, ho⟩ := h.fits_of_unfolds hb (fun c hc => childOk_of_mem hv hc) hv.pairwise_names
    refine ⟨⟨hn, ho, hw.1⟩, ?_, ?_⟩
    · have := hw.2.1
      simp only [index, Node.listing, length_cons, length_listing]
      omega
    · rw [indexSize_index_dir hn]
      exact hw.2.2
  | file => exact ⟨trivial, (by decide : 1 ≤ maxNarEntries), Nat.zero_le _⟩
  | @symlink name target =>
    have htg : target.length ≤ maxTargetLen := by
      simp only [decodeRootNode] at hr
      split at hr
      · cases hr
      · rename_i hv
        simp only [validTarget, Bool.not_eq_true', Bool.not_eq_false, Bool.and_eq_true,
          decide_eq_true_eq] at hv
        exact hv.1.2
    refine ⟨htg, (by decide : 1 ≤ maxNarEntries), ?_⟩
    have := hw.2
    simpa [index, Node.listing, Leaf.entry, leafTargetLen] using this

theorem rootDigest_eq (h : Checked k dirs) (ht : RootUnfolds dirs root t) :
    k.rootDigest t = rootDirDigest root := by
  cases ht with
  | dir hf hb =>
    rw [Codec.rootDigest, (h.merkle_eq hf hb).1, h.digest _ _ hf]
    rfl
  | file | symlink => rfl

end Checked

def FileOk (k : Codec) (contents : Digest → Bytes) (digest : Digest) (size : UInt64) : Prop :=
  k.blake3 (contents digest) = digest ∧ (contents digest).length = size.toNat

def FilesOk (k : Codec) (contents : Digest → Bytes) (events : List WalkEvent) : Prop :=
  ∀ name digest size executable, .file name digest size executable ∈ events →
    FileOk k contents digest size

def LeafOk (k : Codec) (contents : Digest → Bytes) : Leaf FileRef → Prop
  | .regular ref _ => FileOk k contents ref.1 ref.2
  | .symlink _ => True

theorem FilesOk.leaf (h : FilesOk k contents evs) (hl : leafEvent name l ∈ evs) :
    LeafOk k contents l := by
  cases l with
  | regular ref executable => exact h _ _ _ _ hl
  | symlink target => trivial

theorem FilesOk.entries (h : FilesOk k contents evs) (hf : ∀ ev ∈ entryEvents f, ev ∈ evs) :
    f.All (fun _ => True) (LeafOk k contents) := by
  induction f with
  | nil => trivial
  | leaf name l rest ih =>
    obtain ⟨hl, hr⟩ := forall_mem_cons.mp hf
    exact ⟨trivial, h.leaf hl, ih hr⟩
  | dir name kids rest ihk ih =>
    rw [entryEvents, forall_mem_cons, forall_mem_append, forall_mem_cons] at hf
    exact ⟨trivial, ihk hf.2.1, ih hf.2.2.2⟩

theorem fill_leafOk (h : LeafOk k contents l) (hl : l.Sized) :
    (l.map (fill contents)).Good ∧ Backed contents l ∧
      (l.map (fill contents)).map (refOf k.blake3) = l := by
  cases l with
  | regular ref executable =>
    obtain ⟨digest, size⟩ := ref
    obtain ⟨hd, hle⟩ := h
    have hs : UInt64.ofNat (contents digest).length = size := by
      rw [hle, UInt64.ofNat_toNat]
    refine ⟨?_, hs, ?_⟩
    · show (contents digest).length < 2 ^ 64
      rw [hle]
      exact size.toNat_lt
    · simp only [Leaf.map, fill, refOf]
      rw [hs, hd]
  | symlink target => exact ⟨hl, trivial, rfl⟩

theorem fill_entriesOk (h : f.All (fun _ => True) (LeafOk k contents))
    (hf : f.All ValidName Leaf.Sized) : (f.map (Leaf.map (fill contents))).All ValidName Leaf.Good ∧
      f.All (fun _ => True) (Backed contents) ∧
      (f.map (Leaf.map (fill contents))).map (Leaf.map (refOf k.blake3)) = f := by
  induction f with
  | nil => exact ⟨trivial, trivial, rfl⟩
  | leaf name l rest ih =>
    obtain ⟨hg, hb, hl⟩ := fill_leafOk h.2.1 hf.2.1
    obtain ⟨hr, hrb, hre⟩ := ih h.2.2 hf.2.2
    exact ⟨⟨hf.1, hg, hr⟩, ⟨trivial, hb, hrb⟩, congrArg₂ (Forest.leaf name) hl hre⟩
  | dir name kids rest ihk ih =>
    obtain ⟨hk, hkb, hkd⟩ := ihk h.2.1 hf.2.1
    obtain ⟨hr, hrb, hre⟩ := ih h.2.2 hf.2.2
    exact ⟨⟨hf.1, hk, hr⟩, ⟨trivial, hkb, hrb⟩, congrArg₂ (Forest.dir name) hkd hre⟩

theorem fill_nodeOk {d : Nat} (h : FilesOk k contents (nodeEvents t)) (ht : t.Fits d) :
    (t.map (fill contents)).Good ∧ NodeBacked contents t ∧
      (t.map (fill contents)).map (refOf k.blake3) = t := by
  cases t with
  | leaf l =>
    obtain ⟨hg, hb, hl⟩ := fill_leafOk (h.leaf mem_cons_self) ht
    exact ⟨hg, hb, congrArg Node.leaf hl⟩
  | dir kids =>
    have hk := h.entries fun ev he =>
      mem_cons_of_mem _ (mem_append_left _ he)
    obtain ⟨hg, hb, hf⟩ := fill_entriesOk hk ht.1
    exact ⟨hg, hb, congrArg Node.dir hf⟩

theorem checked_graph_reads_back {i maxNodes : Nat}
    (hdigest : ∀ x d, dirs.lookup x = some d → k.directoryDigest d = x)
    (hvalid : ∀ x d, dirs.lookup x = some d → validateDirectory d = .ok ())
    (hsizes : checkDirectoryEntrySizes dirs = .ok ())
    (hroot : decodeRootNode (some root) i = .ok root)
    (hwalk : (walk root dirs maxNarEntries).2 = none)
    (hfiles : FilesOk k contents (walk root dirs maxNarEntries).1)
    (hmax : maxNarEntries ≤ maxNodes) : (narPieces root dirs maxNodes).2 = none ∧
      ∃ entries cursor dag,
        narLs k.blake3 ((narPieces root dirs maxNodes).1.flatMap (NarPiece.bytes contents)) =
          .ok (entries, cursor) ∧
        cursor.rest = [] ∧ treeToEntries root dirs maxNodes = .ok entries ∧
        build k entries = some dag ∧ dag.rootDigest = rootDirDigest root := by
  have hc : Checked k dirs := ⟨hdigest, fun x d hd => validateDirectory_eq_ok.mp (hvalid x d hd),
    checkDirectoryEntrySizes_eq_ok.mp hsizes⟩
  obtain ⟨t, ht, hw⟩ := exists_rootUnfolds hwalk
  have ha := hc.allowed hroot ht hw
  rw [walk_rootUnfolds ht hw] at hfiles
  obtain ⟨hg, hb, hf⟩ := fill_nodeOk hfiles ha.fits
  obtain ⟨hn, hp⟩ := narPieces_eq ht (Walkable.mono hw hmax) hb
  obtain ⟨dag, hda, hbu, -⟩ := build_index (nodeNamed_of_fits ha.fits)
  refine ⟨hn, index t, ⟨[], (archive (t.map (fill contents))).length⟩, dag, ?_, rfl,
    treeToEntries_eq ht (Walkable.mono hw hmax) ha.fits, hda, ?_⟩
  · rw [hp]
    refine narLs_eq_ok.mpr ⟨_, hg, by rwa [hf], ⟨by simp, by simp⟩, by rw [hf]⟩
  · rw [hbu.rootDigest, hc.rootDigest_eq ht]

def sharingDirs : Map Digest Directory := bodyMap (.numbered headDigest) [sharingBody, sharedBody]

theorem nodup_sharing :
    ([sharingBody, sharedBody].map (Codec.numbered headDigest).directoryDigest).Nodup := by
  simp only [List.map_cons, List.map_nil, directoryDigest_numbered]
  decide

theorem lookup_sharingDirs : sharingDirs.lookup x = some d ↔
    d = sharingBody ∧ headDigest [3] = x ∨ d = sharedBody ∧ headDigest [1] = x := by
  rw [sharingDirs, lookup_bodyMap nodup_sharing, directoryDigest_numbered]
  constructor
  · rintro ⟨hd, rfl⟩
    rcases mem_pair.mp hd with rfl | rfl
    · exact .inl ⟨rfl, rfl⟩
    · exact .inr ⟨rfl, rfl⟩
  · rintro (⟨rfl, rfl⟩ | ⟨rfl, rfl⟩)
    · exact ⟨mem_cons_self, rfl⟩
    · exact ⟨mem_cons_of_mem _ mem_cons_self, rfl⟩

theorem valid_sharing (hd : d ∈ [sharingBody, sharedBody]) : validateDirectory d = .ok () := by
  rcases mem_pair.mp hd with rfl | rfl
  · decide
  · decide

theorem rootUnfolds_sharing : RootUnfolds sharingDirs (.dirDigest (headDigest [3]).1)
    (.dir (.dir [97] (.leaf [102] (.regular (headDigest [7, 8], 2) false) .nil)
      (.dir [98] (.leaf [102] (.regular (headDigest [7, 8], 2) false) .nil) .nil))) := by
  have hs : sharingDirs.lookup (headDigest [1]) = some sharedBody :=
    lookup_sharingDirs.mpr (.inr ⟨rfl, rfl⟩)
  have hr : sharingDirs.lookup (headDigest [3]) = some sharingBody :=
    lookup_sharingDirs.mpr (.inl ⟨rfl, rfl⟩)
  exact .dir hr (.dir hs (.file .nil) (.dir hs (.file .nil) .nil))

theorem walk_sharing : walk (.dirDigest (headDigest [3]).1) sharingDirs maxNarEntries =
    ([.enterDir [], .enterDir [97], .file [102] (headDigest [7, 8]) 2 false, .leaveDir,
      .enterDir [98], .file [102] (headDigest [7, 8]) 2 false, .leaveDir, .leaveDir], none) :=
  walk_rootUnfolds rootUnfolds_sharing ⟨by simp [Forest.Within, maxNarDepth], by decide, by decide⟩

theorem sized_sharing (hd : sharingDirs.lookup x = some d) (he : e ∈ d.directories) :
    EntrySized sharingDirs e := by
  obtain ⟨rfl, -⟩ | ⟨rfl, -⟩ := lookup_sharingDirs.mp hd
  · refine ⟨headDigest [1], sharedBody, ?_, lookup_sharingDirs.mpr (.inr ⟨rfl, rfl⟩), ?_⟩
    · rcases mem_pair.mp he with rfl | rfl <;> rfl
    · rcases mem_pair.mp he with rfl | rfl <;> decide
  · cases he

theorem checked_graph_reads_back_sharing :
    (narPieces (.dirDigest (headDigest [3]).1) sharingDirs maxNarEntries).2 = none ∧
      ∃ entries cursor dag,
        narLs headDigest ((narPieces (.dirDigest (headDigest [3]).1) sharingDirs
          maxNarEntries).1.flatMap (NarPiece.bytes fun _ => [7, 8])) = .ok (entries, cursor) ∧
        cursor.rest = [] ∧
        treeToEntries (.dirDigest (headDigest [3]).1) sharingDirs maxNarEntries = .ok entries ∧
        build (.numbered headDigest) entries = some dag ∧
        dag.rootDigest = rootDirDigest (.dirDigest (headDigest [3]).1) := by
  refine checked_graph_reads_back (k := .numbered headDigest) (i := 0) ?_ ?_ ?_ ?_ ?_ ?_ le_rfl
  · exact fun x d hd => ((lookup_bodyMap nodup_sharing x d).mp hd).2
  · exact fun x d hd => valid_sharing ((lookup_bodyMap nodup_sharing x d).mp hd).1
  · exact checkDirectoryEntrySizes_eq_ok.mpr fun x d hd e he => sized_sharing hd he
  · rw [decodeRootNode, if_neg (not_not.mpr (headDigest [3]).2)]
  · rw [walk_sharing]
  · rw [walk_sharing]
    intro name digest size executable hf
    obtain ⟨rfl, rfl, rfl, rfl⟩ : name = [102] ∧ digest = headDigest [7, 8] ∧ size = 2 ∧
        executable = false := by simpa using hf
    exact ⟨rfl, rfl⟩

end RioBuild.Chunked
