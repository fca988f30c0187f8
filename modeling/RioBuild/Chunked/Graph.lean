import RioBuild.Chunked.Begin

namespace RioBuild.Chunked

open Lib Castore Nar List

variable {k : Codec} {f : Entries FileRef}

def weight : Child → UInt64
  | .dir e => 1 + e.size
  | .file _ | .symlink _ => 1

theorem merkle_snd : (k.merkle f).2 = ((k.children f).map weight).sum := by
  induction f with
  | nil => rfl
  | leaf name l rest ih =>
    cases l with
    | regular ref executable =>
      rw [Codec.merkle, Codec.children, List.map_cons, sum_cons, ih, weight]
    | symlink target => rw [Codec.merkle, Codec.children, List.map_cons, sum_cons, ih, weight]
  | dir name kids rest _ ih =>
    rw [Codec.merkle, Codec.children, List.map_cons, sum_cons, ih, weight]

theorem checkedAdd_eq_some (h : checkedAdd a b = some c) : c = a + b := by
  unfold checkedAdd at h
  split at h
  · exact (Option.some_inj.mp h).symm
  · cases h

theorem foldlM_checkedAdd {es : List DirectoryEntry}
    (h : es.foldlM (fun acc c => checkedAdd acc c.size) n = some s) :
    s = n + (es.map (·.size)).sum := by
  induction es generalizing n with
  | nil =>
    cases h
    simp
  | cons e es ih =>
    obtain ⟨m, hm, h⟩ := Option.bind_eq_some_iff.mp h
    rw [ih h, checkedAdd_eq_some hm, List.map_cons, sum_cons, add_assoc]

theorem sum_one_add (g : α → UInt64) (l : List α) :
    (l.map fun a => 1 + g a).sum = UInt64.ofNat l.length + (l.map g).sum := by
  induction l with
  | nil => rfl
  | cons a l ih =>
    rw [List.map_cons, sum_cons, ih, List.map_cons, sum_cons, length_cons,
      UInt64.ofNat_add, show UInt64.ofNat 1 = 1 from rfl]
    abel

theorem sum_one (l : List α) : (l.map fun _ => (1 : UInt64)).sum = UInt64.ofNat l.length := by
  have h := sum_one_add (fun _ => 0) l
  simpa using h

theorem sum_weight_byKind : ((byKind d).map weight).sum =
    UInt64.ofNat (entryCount d) + (d.directories.map (·.size)).sum := by
  rw [byKind, map_append, map_append, map_map, map_map, map_map,
    sum_append, sum_append, entryCount, UInt64.ofNat_add, UInt64.ofNat_add,
    ← sum_one d.files, ← sum_one d.symlinks]
  have hd := sum_one_add DirectoryEntry.size d.directories
  have hs : (d.directories.map (weight ∘ Child.dir)).sum =
      UInt64.ofNat d.directories.length + (d.directories.map (·.size)).sum := hd
  rw [hs]
  have hf : weight ∘ Child.file = fun _ => 1 := rfl
  have hsy : weight ∘ Child.symlink = fun _ => 1 := rfl
  abel

theorem sum_weight_sortedChildren (h : claimedDescendants d = some s) :
    ((sortedChildren d).map weight).sum = s := by
  rw [((perm_sortedChildren d).map weight).sum_eq, sum_weight_byKind, foldlM_checkedAdd h]

def EntrySized (dirs : Map Digest Directory) (e : DirectoryEntry) : Prop :=
  ∃ digest child, e.digest = digest.1 ∧ dirs.lookup digest = some child ∧
    claimedDescendants child = some e.size

structure Checked (k : Codec) (dirs : Map Digest Directory) : Prop where
  digest : ∀ x d, dirs.lookup x = some d → k.directoryDigest d = x
  valid : ∀ x d, dirs.lookup x = some d → ValidDirectory d
  sized : ∀ x d, dirs.lookup x = some d → ∀ e ∈ d.directories, EntrySized dirs e

theorem checkEntrySize_eq_ok : checkEntrySize dirs e = .ok () ↔ EntrySized dirs e := by
  unfold checkEntrySize EntrySized
  constructor
  · intro h
    split at h
    · cases h
    · rename_i digest hd
      split at h
      · cases h
      · rename_i child hc
        split at h
        · cases h
        · rename_i hs
          exact ⟨digest, child, toDigest_eq_some.mp hd, hc, not_not.mp hs⟩
  · rintro ⟨digest, child, hd, hc, hs⟩
    simp [toDigest_eq_some.mpr hd, hc, hs]

theorem checkDirectoryEntrySizes_eq_ok : checkDirectoryEntrySizes dirs = .ok () ↔
    ∀ x d, dirs.lookup x = some d → ∀ e ∈ d.directories, EntrySized dirs e := by
  unfold checkDirectoryEntrySizes
  simp only [Guards.forM_eq_ok, checkEntrySize_eq_ok, mem_sortedRows]
  exact ⟨fun h x d hd => h (x, d) hd, fun h row hr => h row.1 row.2 hr⟩

namespace Checked

theorem mem_directories (he : Child.dir e ∈ sortedChildren d) : e ∈ d.directories := by
  have he := (perm_sortedChildren d).mem_iff.mp he
  simpa [byKind] using he

theorem children_eq (h : Checked k dirs) (hf : Unfolds dirs cs f)
    (hc : ∀ e, Child.dir e ∈ cs → EntrySized dirs e) : k.children f = cs := by
  induction hf with
  | nil => rfl
  | @dir name digest size d rest kids f hfd hb ha ihk ih =>
    obtain ⟨digest', child, hd, hch, hs⟩ := hc _ mem_cons_self
    obtain rfl : digest = digest' := Subtype.ext hd
    rw [hfd] at hch
    cases hch
    have hk := ihk fun e he => h.sized _ _ hfd e (mem_directories he)
    rw [Codec.children, ih fun e he => hc e (mem_cons_of_mem _ he), merkle_fst, merkle_snd,
      hk, (h.valid _ _ hfd).bodyOf_sortedChildren, h.digest _ _ hfd, sum_weight_sortedChildren hs]
  | file _ ih | symlink _ ih =>
    rw [Codec.children, ih fun e he => hc e (mem_cons_of_mem _ he)]

theorem merkle_eq (h : Checked k dirs) (hd : dirs.lookup x = some d)
    (hf : Unfolds dirs (sortedChildren d) f) :
    (k.merkle f).1 = d ∧ ∀ s, claimedDescendants d = some s → (k.merkle f).2 = s := by
  have hc := h.children_eq hf fun e he => h.sized x d hd e (mem_directories he)
  refine ⟨?_, fun s hs => ?_⟩
  · rw [merkle_fst, hc, (h.valid x d hd).bodyOf_sortedChildren]
  · rw [merkle_snd, hc, sum_weight_sortedChildren hs]

end Checked

end RioBuild.Chunked
