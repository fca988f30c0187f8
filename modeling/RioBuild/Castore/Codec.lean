import Mathlib.Logic.Equiv.List
import RioBuild.Castore.Build

namespace RioBuild.Castore

open Lib

variable {k : Codec}

structure Codec.Lossless (k : Codec) : Prop where
  directory : ∀ d, k.decodeDirectory (k.encodeDirectory d) = some d
  rootNode : ∀ r, k.decodeRootNode (k.encodeRootNode r) = some r

theorem Codec.Lossless.encodeDirectory_inj (h : k.Lossless)
    (heq : k.encodeDirectory d = k.encodeDirectory d') : d = d' := by
  have := h.directory d
  rw [heq, h.directory] at this
  exact (Option.some_inj.mp this).symm

instance byteCode : Encodable UInt8 :=
  .ofLeftInverse UInt8.toNat UInt8.ofNat fun _ => UInt8.ofNat_toNat

instance sizeCode : Encodable UInt64 :=
  .ofLeftInverse UInt64.toNat UInt64.ofNat fun _ => UInt64.ofNat_toNat

instance : Encodable DirectoryEntry :=
  .ofLeftInverse (fun e => (e.name, e.digest, e.size)) (fun x => ⟨x.1, x.2.1, x.2.2⟩) fun _ => rfl

instance : Encodable FileEntry :=
  .ofLeftInverse (fun e => (e.name, e.digest, e.size, e.executable))
    (fun x => ⟨x.1, x.2.1, x.2.2.1, x.2.2.2⟩) fun _ => rfl

instance : Encodable SymlinkEntry :=
  .ofLeftInverse (fun e => (e.name, e.target)) (fun x => ⟨x.1, x.2⟩) fun _ => rfl

instance : Encodable Directory :=
  .ofLeftInverse (fun d => (d.directories, d.files, d.symlinks))
    (fun x => ⟨x.1, x.2.1, x.2.2⟩) fun _ => rfl

def RootNode.toSum : RootNode → Option (Bytes ⊕ FileEntry ⊕ SymlinkEntry)
  | unset => none
  | dirDigest digest => some (.inl digest)
  | file entry => some (.inr (.inl entry))
  | symlink entry => some (.inr (.inr entry))

def RootNode.ofSum : Option (Bytes ⊕ FileEntry ⊕ SymlinkEntry) → RootNode
  | none => unset
  | some (.inl digest) => dirDigest digest
  | some (.inr (.inl entry)) => file entry
  | some (.inr (.inr entry)) => symlink entry

instance : Encodable RootNode :=
  .ofLeftInverse RootNode.toSum RootNode.ofSum fun r => by cases r <;> rfl

/-- A message has as many zeros after its first byte as its number says. -/
def Codec.numbered (blake3 : Bytes → Digest) : Codec where
  blake3
  encodeDirectory d :=
    UInt8.ofNat (d.directories.length + 1) :: List.replicate (Encodable.encode d) 0
  decodeDirectory b := Encodable.decode (b.length - 1)
  encodeRootNode r := 1 :: List.replicate (Encodable.encode r) 0
  decodeRootNode b := Encodable.decode (b.length - 1)

theorem Codec.lossless_numbered (blake3 : Bytes → Digest) : (numbered blake3).Lossless := by
  constructor
  · intro d
    simp [numbered]
  · intro r
    simp [numbered]

def headDigest (b : Bytes) : Digest := ⟨b.headD 0 :: List.replicate 31 0, rfl⟩

theorem eq_of_headDigest (h : headDigest b = headDigest b') : b.headD 0 = b'.headD 0 :=
  List.head_eq_of_cons_eq (Subtype.ext_iff.mp h)

theorem directoryDigest_numbered (d : Directory) :
    (Codec.numbered headDigest).directoryDigest d =
      headDigest [UInt8.ofNat (d.directories.length + 1)] :=
  Subtype.ext rfl

def sharedBody : Directory := { files := [⟨[102], (headDigest [7, 8]).1, 2, false⟩] }

/-- Its two entries are one subdirectory. -/
def sharingBody : Directory :=
  { directories := [⟨[97], (headDigest [1]).1, 1⟩, ⟨[98], (headDigest [1]).1, 1⟩] }

end RioBuild.Castore
