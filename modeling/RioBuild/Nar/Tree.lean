import RioBuild.Lib.Forest
import RioBuild.Nar.Ls

/-! Archives as trees: the bytes of a tree, and its index.  A file is there with its contents, or
with what the index says of them. -/

namespace RioBuild.Nar

open Lib Castore Nar.Frame List

inductive Leaf (φ : Type)
  | regular (contents : φ) (executable : Bool)
  | symlink (target : Bytes)
  deriving DecidableEq, Repr

abbrev Entries (φ : Type) := Forest Bytes (Leaf φ)

inductive Node (φ : Type)
  | leaf (l : Leaf φ)
  | dir (kids : Entries φ)
  deriving DecidableEq, Repr

abbrev FileRef := Digest × UInt64

def Leaf.map {φ ψ : Type} (f : φ → ψ) : Leaf φ → Leaf ψ
  | regular contents executable => regular (f contents) executable
  | symlink target => symlink target

def Node.map {φ ψ : Type} (f : φ → ψ) : Node φ → Node ψ
  | leaf l => leaf (l.map f)
  | dir kids => dir (kids.map (Leaf.map f))

def Node.cons {φ : Type} (name : Bytes) (rest : Entries φ) : Node φ → Entries φ
  | leaf l => .leaf name l rest
  | dir kids => .dir name kids rest

def refOf (blake3 : Bytes → Digest) (contents : Bytes) : FileRef :=
  (blake3 contents, UInt64.ofNat contents.length)

def Leaf.encode : Leaf Bytes → Bytes
  | regular contents executable =>
    nodeOpen ++ (regularHeader executable (UInt64.ofNat contents.length) ++ (contents ++
      (contentsPadding (UInt64.ofNat contents.length) ++ nodeClose)))
  | .symlink target => nodeOpen ++ (Frame.symlink target ++ nodeClose)

def encodeEntries : Entries Bytes → Bytes
  | .nil => []
  | .leaf name l rest => entryOpen name ++ (l.encode ++ (entryClose ++ encodeEntries rest))
  | .dir name kids rest =>
    entryOpen name ++ (nodeOpen ++ (directoryOpen ++ (encodeEntries kids ++ (nodeClose ++
      (entryClose ++ encodeEntries rest)))))

def Node.encode : Node Bytes → Bytes
  | leaf l => l.encode
  | dir kids => nodeOpen ++ (directoryOpen ++ (encodeEntries kids ++ nodeClose))

def archive (t : Node Bytes) : Bytes := magic ++ t.encode

def Leaf.len : Leaf FileRef → Nat
  | regular ref executable =>
    nodeOpen.length + (regularHeader executable ref.2).length + ref.2.toNat +
      (contentsPadding ref.2).length + nodeClose.length
  | .symlink target => nodeOpen.length + (Frame.symlink target).length + nodeClose.length

def entriesLen : Entries FileRef → Nat
  | .nil => 0
  | .leaf name l rest => (entryOpen name).length + l.len + entryClose.length + entriesLen rest
  | .dir name kids rest =>
    (entryOpen name).length + (nodeOpen.length + directoryOpen.length + entriesLen kids +
      nodeClose.length) + entryClose.length + entriesLen rest

def Node.len : Node FileRef → Nat
  | leaf l => l.len
  | dir kids => nodeOpen.length + directoryOpen.length + entriesLen kids + nodeClose.length

def Leaf.entry (path : Bytes) (pos : Nat) : Leaf FileRef → NarLsEntry
  | regular ref executable =>
    { path, kind := .regular, size := ref.2, executable
      narOffset := pos + nodeOpen.length + (regularHeader executable ref.2).length
      fileDigest := ref.1 }
  | .symlink target => { path, kind := .symlink, target }

def dirEntry (path : Bytes) : NarLsEntry := { path, kind := .directory }

def listing (path : Bytes) : Nat → Entries FileRef → List NarLsEntry
  | _, .nil => []
  | pos, .leaf name l rest =>
    l.entry (childPath path name) (pos + (entryOpen name).length) ::
      listing path (pos + (entryOpen name).length + l.len + entryClose.length) rest
  | pos, .dir name kids rest =>
    dirEntry (childPath path name) ::
      (listing (childPath path name)
        (pos + (entryOpen name).length + (nodeOpen.length + directoryOpen.length)) kids ++
      listing path (pos + (entryOpen name).length + (nodeOpen.length + directoryOpen.length +
        entriesLen kids + nodeClose.length) + entryClose.length) rest)

def Node.listing (path : Bytes) (pos : Nat) : Node FileRef → List NarLsEntry
  | leaf l => [l.entry path pos]
  | dir kids =>
    dirEntry path :: Nar.listing path (pos + (nodeOpen.length + directoryOpen.length)) kids

def index (t : Node FileRef) : List NarLsEntry := t.listing [] magic.length

def indexSize (entries : List NarLsEntry) : Nat :=
  (entries.map fun e => e.path.length + e.target.length).sum

def ValidName (name : Bytes) : Prop := validComponent name = true ∧ name.length ≤ maxNameLen

theorem ValidName.slash (h : ValidName name) : 47 ∉ name := by
  have hv := h.1
  simp only [validComponent, Bool.and_eq_true, Bool.not_eq_true', contains_eq_mem,
    decide_eq_false_iff_not] at hv
  exact hv.1.2

def Leaf.Sized : Leaf FileRef → Prop
  | regular _ _ => True
  | symlink target => target.length ≤ maxTargetLen

def Node.Fits (d : Nat) : Node FileRef → Prop
  | leaf l => l.Sized
  | dir kids => kids.All ValidName Leaf.Sized ∧ kids.Ordered (· < ·) ∧ kids.Within d

structure Node.Allowed (t : Node FileRef) : Prop where
  fits : t.Fits maxNarDepth
  entries : (index t).length ≤ maxNarEntries
  bytes : indexSize (index t) ≤ maxNarIndexBytes

@[simp] theorem indexSize_nil : indexSize [] = 0 := rfl

@[simp] theorem indexSize_cons :
    indexSize (e :: l) = e.path.length + e.target.length + indexSize l := by
  simp [indexSize]

@[simp] theorem indexSize_append : indexSize (l ++ l') = indexSize l + indexSize l' := by
  simp [indexSize]

theorem length_listing : (listing path pos f).length = f.count := by
  induction f generalizing path pos with
  | nil => rfl
  | leaf name l rest ih => simp [listing, Forest.count, ih]
  | dir name kids rest ihk ih => simp [listing, Forest.count, ihk, ih]

def Leaf.Good : Leaf Bytes → Prop
  | regular contents _ => contents.length < 2 ^ 64
  | symlink target => target.length ≤ maxTargetLen

def Node.Good : Node Bytes → Prop
  | leaf l => l.Good
  | dir kids => kids.All ValidName Leaf.Good

theorem Leaf.Good.sized {l : Leaf Bytes} (h : l.Good) : (l.map (refOf blake3)).Sized := by
  cases l with
  | regular contents executable => trivial
  | symlink target => exact h

theorem all_map {f : Entries Bytes} (h : f.All ValidName Leaf.Good) :
    (f.map (Leaf.map (refOf blake3))).All ValidName Leaf.Sized := by
  induction f with
  | nil => trivial
  | leaf name l rest ih => exact ⟨h.1, h.2.1.sized, ih h.2.2⟩
  | dir name kids rest ihk ih => exact ⟨h.1, ihk h.2.1, ih h.2.2⟩

theorem Leaf.length_encode (blake3 : Bytes → Digest) {l : Leaf Bytes} (h : l.Good) :
    l.encode.length = (l.map (refOf blake3)).len := by
  cases l with
  | regular contents executable =>
    have hl : (UInt64.ofNat contents.length).toNat = contents.length := by
      rw [UInt64.toNat_ofNat', Nat.mod_eq_of_lt h]
    simp only [encode, map, refOf, len, length_append]
    omega
  | symlink target =>
    simp only [encode, map, len, length_append]
    omega

theorem length_encodeEntries (blake3 : Bytes → Digest) (h : f.All ValidName Leaf.Good) :
    (encodeEntries f).length = entriesLen (f.map (Leaf.map (refOf blake3))) := by
  induction f with
  | nil => rfl
  | leaf name l rest ih =>
    rw [encodeEntries, Forest.map, entriesLen, length_append, length_append,
      length_append, ih h.2.2, Leaf.length_encode blake3 h.2.1]
    omega
  | dir name kids rest ihk ih =>
    simp only [encodeEntries, Forest.map, entriesLen, length_append, ih h.2.2, ihk h.2.1]
    omega

theorem Node.length_encode (blake3 : Bytes → Digest) {t : Node Bytes} (h : t.Good) :
    t.encode.length = (t.map (refOf blake3)).len := by
  cases t with
  | leaf l => exact Leaf.length_encode blake3 h
  | dir kids =>
    simp only [encode, map, len, length_append, length_encodeEntries blake3 h]
    omega

section Cons

variable (name : Bytes) (t : Node Bytes) (rest : Entries Bytes) (r : Node FileRef)
  (rs : Entries FileRef) (path : Bytes) (pos : Nat)

theorem map_cons (t : Node φ) (rest : Entries φ) :
    (t.cons name rest).map (Leaf.map f) = (t.map f).cons name (rest.map (Leaf.map f)) := by
  cases t <;> rfl

theorem encodeEntries_cons : encodeEntries (t.cons name rest) =
    entryOpen name ++ (t.encode ++ (entryClose ++ encodeEntries rest)) := by
  cases t with
  | leaf l => rfl
  | dir kids => simp [Node.cons, Node.encode, encodeEntries]

theorem listing_cons : listing path pos (r.cons name rs) =
    r.listing (childPath path name) (pos + (entryOpen name).length) ++
      listing path (pos + (entryOpen name).length + r.len + entryClose.length) rs := by
  cases r <;> rfl

end Cons

end RioBuild.Nar
