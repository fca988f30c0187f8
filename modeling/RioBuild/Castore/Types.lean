import RioBuild.Lib.Bytes

/-! The castore messages.  Strings are their bytes. -/

namespace RioBuild.Castore

open Lib

abbrev Digest := { d : Bytes // d.length = 32 }

def toDigest (b : Bytes) : Option Digest := if h : b.length = 32 then some ⟨b, h⟩ else none

structure DirectoryEntry where
  name : Bytes
  digest : Bytes
  size : UInt64
  deriving DecidableEq, Repr

structure FileEntry where
  name : Bytes
  digest : Bytes
  size : UInt64
  executable : Bool
  deriving DecidableEq, Repr

structure SymlinkEntry where
  name : Bytes
  target : Bytes
  deriving DecidableEq, Repr

structure Directory where
  directories : List DirectoryEntry := []
  files : List FileEntry := []
  symlinks : List SymlinkEntry := []
  deriving DecidableEq, Repr

inductive RootNode
  | unset
  | dirDigest (digest : Bytes)
  | file (entry : FileEntry)
  | symlink (entry : SymlinkEntry)
  deriving DecidableEq, Repr

theorem toDigest_eq_some : toDigest b = some d ↔ b = d.1 := by
  unfold toDigest
  split_ifs with h
  · rw [Option.some.injEq, Subtype.ext_iff]
  · refine iff_of_false (by simp) ?_
    rintro rfl
    exact h d.2

theorem toDigest_eq_none : toDigest b = none ↔ b.length ≠ 32 := by
  unfold toDigest
  split <;> simp_all

end RioBuild.Castore
