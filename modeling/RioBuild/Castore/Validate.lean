import RioBuild.Castore.Unfold

namespace RioBuild.Castore

open Lib Nar List

def maxCastoreNameBytes : Nat := 256
def maxCastoreTargetBytes : Nat := 4096
def maxCastoreDirEntries : Nat := 1048576

/-- The texts of the errors are left out. -/
inductive DirectoryError
  | invalidName (name : Bytes)
  | unsorted (name : Bytes)
  | duplicateName (name : Bytes)
  | badDigestLen (name : Bytes) (len : Nat)
  | nameTooLong (name : Bytes) (len : Nat)
  | badTarget (name : Bytes) (len : Nat)
  | tooManyEntries (count : Nat)
  deriving DecidableEq, Repr

def checkSorted : Option Bytes → List Bytes → Except DirectoryError Unit
  | _, [] => .ok ()
  | prev, n :: ns =>
    if !validComponent n then .error (.invalidName n)
    else if n.length > maxCastoreNameBytes then .error (.nameTooLong n n.length)
    else if prev.any (n ≤ ·) then .error (.unsorted n)
    else checkSorted (some n) ns

def checkDigestLen (name digest : Bytes) : Except DirectoryError Unit :=
  if digest.length ≠ 32 then .error (.badDigestLen name digest.length) else .ok ()

def validTarget (target : Bytes) : Bool :=
  target ≠ [] && target.length ≤ maxCastoreTargetBytes && !target.contains 0

def checkTarget (e : SymlinkEntry) : Except DirectoryError Unit :=
  if !validTarget e.target then .error (.badTarget e.name e.target.length) else .ok ()

def checkUnique : Finset Bytes → List Bytes → Except DirectoryError Unit
  | _, [] => .ok ()
  | seen, n :: ns =>
    if n ∈ seen then .error (.duplicateName n) else checkUnique (insert n seen) ns

def entryCount (d : Directory) : Nat :=
  d.directories.length + d.files.length + d.symlinks.length

def entryNames (d : Directory) : List Bytes :=
  d.directories.map (·.name) ++ (d.files.map (·.name) ++ d.symlinks.map (·.name))

def validateDirectory (d : Directory) : Except DirectoryError Unit := do
  if entryCount d > maxCastoreDirEntries then throw (.tooManyEntries (entryCount d))
  checkSorted none (d.directories.map (·.name))
  checkSorted none (d.files.map (·.name))
  checkSorted none (d.symlinks.map (·.name))
  forM d.directories fun e => checkDigestLen e.name e.digest
  forM d.files fun e => checkDigestLen e.name e.digest
  forM d.symlinks checkTarget
  checkUnique ∅ (entryNames d)

structure ValidDirectory (d : Directory) : Prop where
  count : entryCount d ≤ maxCastoreDirEntries
  names : ∀ n ∈ entryNames d, ValidName n
  directories : (d.directories.map (·.name)).Pairwise (· < ·)
  files : (d.files.map (·.name)).Pairwise (· < ·)
  symlinks : (d.symlinks.map (·.name)).Pairwise (· < ·)
  dirDigests : ∀ e ∈ d.directories, e.digest.length = 32
  fileDigests : ∀ e ∈ d.files, e.digest.length = 32
  targets : ∀ e ∈ d.symlinks, validTarget e.target = true
  unique : (entryNames d).Nodup

theorem checkSorted_eq_ok {prev : Option Bytes} : checkSorted prev ns = .ok () ↔
    (∀ n ∈ ns, ValidName n) ∧ (prev.toList ++ ns).Pairwise (· < ·) := by
  induction ns generalizing prev with
  | nil => cases prev <;> simp [checkSorted]
  | cons n ns ih =>
    rw [checkSorted]
    split_ifs with hv hl hle
    · refine iff_of_false nofun fun h => ?_
      have := (h.1 n mem_cons_self).1
      simp [this] at hv
    · refine iff_of_false nofun fun h => ?_
      exact absurd (h.1 n mem_cons_self).2 (not_le.mpr hl)
    · refine iff_of_false nofun fun h => ?_
      obtain ⟨p, rfl, hle⟩ := (Option.any_eq_true _ _).mp hle
      have := rel_of_pairwise_cons h.2 mem_cons_self
      exact absurd (of_decide_eq_true hle) (not_le.mpr this)
    · rw [ih, forall_mem_cons]
      have hn : ValidName n := ⟨by simpa using hv, Nat.le_of_not_lt hl⟩
      constructor
      · rintro ⟨hns, hs⟩
        refine ⟨⟨hn, hns⟩, ?_⟩
        cases prev with
        | none => exact hs
        | some p =>
          have hp : p < n := by simpa using hle
          refine pairwise_cons.mpr ⟨fun m hm => ?_, hs⟩
          rcases mem_cons.mp hm with rfl | hm
          · exact hp
          · exact hp.trans (rel_of_pairwise_cons hs hm)
      · rintro ⟨⟨-, hns⟩, hs⟩
        exact ⟨hns, (pairwise_append.mp hs).2.1⟩

theorem checkUnique_eq_ok : checkUnique seen ns = .ok () ↔ ns.Nodup ∧ ∀ n ∈ ns, n ∉ seen := by
  induction ns generalizing seen with
  | nil => simp [checkUnique]
  | cons n ns ih =>
    rw [checkUnique]
    split_ifs with hme
    · exact iff_of_false nofun fun h => h.2 n mem_cons_self hme
    · rw [ih, nodup_cons]
      simp only [Finset.mem_insert, not_or, mem_cons, forall_eq_or_imp]
      constructor
      · rintro ⟨hnd, h⟩
        exact ⟨⟨fun hn => (h n hn).1 rfl, hnd⟩, hme, fun m hm => (h m hm).2⟩
      · rintro ⟨⟨hn, hnd⟩, -, h⟩
        refine ⟨hnd, fun m hm => ⟨?_, h m hm⟩⟩
        rintro rfl
        exact hn hm

theorem checkDigestLen_eq_ok : checkDigestLen name digest = .ok () ↔ digest.length = 32 := by
  unfold checkDigestLen
  split_ifs with h
  · exact iff_of_false nofun h
  · exact iff_of_true rfl (not_not.mp h)

theorem checkTarget_eq_ok : checkTarget e = .ok () ↔ validTarget e.target = true := by
  unfold checkTarget
  split_ifs with h
  · exact iff_of_false nofun (by simpa using h)
  · exact iff_of_true rfl (by simpa using h)

theorem validateDirectory_eq_ok : validateDirectory d = .ok () ↔ ValidDirectory d := by
  unfold validateDirectory
  simp only [Guards.throw_bind, Guards.ite_throw_eq_ok, Guards.seq_eq_ok, checkSorted_eq_ok,
    Guards.forM_eq_ok, checkDigestLen_eq_ok, checkTarget_eq_ok, checkUnique_eq_ok,
    Finset.notMem_empty, not_false_eq_true, implies_true, and_true, not_lt]
  constructor
  · rintro ⟨hc, ⟨hdn, hd⟩, ⟨hfn, hf⟩, ⟨hsn, hs⟩, hdd, hfd, ht, hu⟩
    refine ⟨hc, ?_, hd, hf, hs, hdd, hfd, ht, hu⟩
    rw [entryNames, forall_mem_append, forall_mem_append]
    exact ⟨hdn, hfn, hsn⟩
  · rintro ⟨hc, hn, hd, hf, hs, hdd, hfd, ht, hu⟩
    rw [entryNames, forall_mem_append, forall_mem_append] at hn
    obtain ⟨hdn, hfn, hsn⟩ := hn
    exact ⟨hc, ⟨hdn, hd⟩, ⟨hfn, hf⟩, ⟨hsn, hs⟩, hdd, hfd, ht, hu⟩

def Child.asDir : Child → Option DirectoryEntry
  | dir e => some e
  | file _ | symlink _ => none

def Child.asFile : Child → Option FileEntry
  | file e => some e
  | dir _ | symlink _ => none

def Child.asSymlink : Child → Option SymlinkEntry
  | symlink e => some e
  | dir _ | file _ => none

def bodyOf (cs : List Child) : Directory :=
  ⟨cs.filterMap Child.asDir, cs.filterMap Child.asFile, cs.filterMap Child.asSymlink⟩

section Body

variable {k : Codec}

theorem merkle_fst : (k.merkle f).1 = bodyOf (k.children f) := by
  induction f with
  | nil => rfl
  | leaf name l rest ih =>
    cases l with
    | regular ref executable | symlink target =>
      rw [Codec.merkle, ih]
      rfl
  | dir name kids rest _ ih =>
    rw [Codec.merkle, ih]
    rfl

theorem bodyOf_byKind (d : Directory) : bodyOf (byKind d) = d := by
  simp [bodyOf, byKind, Function.comp_def, Child.asDir, Child.asFile, Child.asSymlink]

theorem map_name_byKind : (byKind d).map Child.name = entryNames d := by
  simp [byKind, entryNames, Child.name, Function.comp_def]

theorem perm_sortedChildren (d : Directory) : (sortedChildren d).Perm (byKind d) :=
  perm_insertionSort _ _

namespace ValidDirectory

theorem pairwise_names (h : ValidDirectory d) :
    (sortedChildren d).Pairwise fun a b => a.name < b.name := by
  have hn : ((sortedChildren d).map Child.name).Nodup := by
    rw [((perm_sortedChildren d).map _).nodup_iff, map_name_byKind]
    exact h.unique
  refine (pairwise_sortedChildren d).imp₂ ?_ (pairwise_map.mp hn)
  exact fun a b hle hne => lt_of_le_of_ne hle hne

theorem filterMap_sortedChildren (h : ValidDirectory d) (g : Child → Option γ) (name : γ → Bytes)
    (hn : ∀ c e, g c = some e → c.name = name e)
    (hl : (l.map name).Pairwise (· < ·)) (hk : (byKind d).filterMap g = l) :
    (sortedChildren d).filterMap g = l := by
  have hp : ((sortedChildren d).filterMap g).Perm l :=
    hk ▸ (perm_sortedChildren d).filterMap g
  have hs : ((sortedChildren d).filterMap g).Pairwise fun a b => name a < name b := by
    rw [pairwise_filterMap]
    refine h.pairwise_names.imp fun ha e he e' he' => ?_
    rwa [hn _ _ he, hn _ _ he'] at ha
  refine hp.eq_of_pairwise ?_ hs (pairwise_map.mp hl)
  exact fun a b _ _ ha hb => absurd ha hb.asymm

theorem bodyOf_sortedChildren (h : ValidDirectory d) : bodyOf (sortedChildren d) = d := by
  have hk := bodyOf_byKind d
  have hd := h.filterMap_sortedChildren Child.asDir DirectoryEntry.name
    (by rintro (e | e | e) _ ⟨⟩; rfl) h.directories (congrArg Directory.directories hk)
  have hf := h.filterMap_sortedChildren Child.asFile FileEntry.name
    (by rintro (e | e | e) _ ⟨⟩; rfl) h.files (congrArg Directory.files hk)
  have hs := h.filterMap_sortedChildren Child.asSymlink SymlinkEntry.name
    (by rintro (e | e | e) _ ⟨⟩; rfl) h.symlinks (congrArg Directory.symlinks hk)
  rw [bodyOf, hd, hf, hs]

end ValidDirectory

end Body

end RioBuild.Castore
