import RioBuild.Lib.Maps
import RioBuild.Nar.Ls

namespace RioBuild.Castore

open Lib Nar

structure Codec where
  blake3 : Bytes → Digest
  encodeDirectory : Directory → Bytes
  decodeDirectory : Bytes → Option Directory
  encodeRootNode : RootNode → Bytes
  decodeRootNode : Bytes → Option RootNode

def Codec.directoryDigest (k : Codec) (d : Directory) : Digest := k.blake3 (k.encodeDirectory d)

structure DirectoryDag where
  directories : List (Digest × Bytes)
  fileBlobs : List (Digest × Nat × UInt64)
  rootNode : Bytes
  rootDigest : Bytes
  dirDigests : List Digest
  deriving DecidableEq, Repr

def rsplitOnceByte (b : UInt8) (s : Bytes) : Option (Bytes × Bytes) :=
  if b ∈ s then
    some ((s.reverse.dropWhile (· ≠ b)).tail.reverse, (s.reverse.takeWhile (· ≠ b)).reverse)
  else none

def parentPath (path : Bytes) : Bytes :=
  match rsplitOnceByte 47 path with
  | some (parent, _) => parent
  | none => []

def basename (path : Bytes) : Bytes :=
  match rsplitOnceByte 47 path with
  | some (_, base) => base
  | none => path

def pathToIdx (entries : List NarLsEntry) : Map Bytes Nat :=
  entries.zipIdx.foldl (fun m x => m.insert x.1.path x.2) ∅

/-- The children of each entry, with their indices; `none` if a parent is missing. -/
def childrenOf (entries : List NarLsEntry) : Option (Nat → List (NarLsEntry × Nat)) :=
  (entries.zipIdx.drop 1).foldlM
    (fun children x => ((pathToIdx entries).lookup (parentPath x.1.path)).map fun parentIdx =>
      Function.update children parentIdx (children parentIdx ++ [x]))
    fun _ => []

structure BuildState where
  dirDigests : Nat → Digest := fun _ => zeroDigest
  dirSizes : Nat → UInt64 := fun _ => 0
  built : List Directory := []

def addChild (st : BuildState) (dir : Directory × UInt64) (child : NarLsEntry × Nat) :
    Directory × UInt64 :=
  match child.1.kind with
  | .regular =>
    ({ dir.1 with
        files := dir.1.files ++
          [{ name := basename child.1.path, digest := child.1.fileDigest.1
             size := child.1.size, executable := child.1.executable }] },
      dir.2 + 1)
  | .directory =>
    ({ dir.1 with
        directories := dir.1.directories ++
          [{ name := basename child.1.path, digest := (st.dirDigests child.2).1
             size := st.dirSizes child.2 }] },
      dir.2 + 1 + st.dirSizes child.2)
  | .symlink =>
    ({ dir.1 with
        symlinks := dir.1.symlinks ++
          [{ name := basename child.1.path, target := child.1.target }] },
      dir.2 + 1)

def assemble (st : BuildState) (children : List (NarLsEntry × Nat)) : Directory × UInt64 :=
  children.foldl (addChild st) ({}, 0)

variable (k : Codec)

def buildStep (children : Nat → List (NarLsEntry × Nat)) (x : NarLsEntry × Nat)
    (st : BuildState) : BuildState :=
  if x.1.kind ≠ .directory then st
  else
    let dir := assemble st (children x.2)
    { dirDigests := Function.update st.dirDigests x.2 (k.directoryDigest dir.1)
      dirSizes := Function.update st.dirSizes x.2 dir.2
      built := st.built ++ [dir.1] }

def buildDirs (entries : List NarLsEntry) (children : Nat → List (NarLsEntry × Nat)) :
    BuildState :=
  entries.zipIdx.foldr (buildStep k children) {}

/-- `bodies.entry(digest).or_insert(body)`. -/
def addBody (bodies : Map Digest Bytes) (d : Directory) : Map Digest Bytes :=
  if k.directoryDigest d ∈ bodies.keys then bodies
  else bodies.insert (k.directoryDigest d) (k.encodeDirectory d)

/-- The distinct files with where they begin in the blob stream, and the length of the stream. -/
def addBlob (x : Map Digest (Nat × UInt64) × Nat) (e : NarLsEntry) :
    Map Digest (Nat × UInt64) × Nat :=
  if e.kind = .regular then
    (if e.fileDigest ∈ x.1.keys then x.1 else x.1.insert e.fileDigest (x.2, e.size),
      x.2 + e.size.toNat)
  else x

def sortedRows {β : Type} (m : Map Digest β) : List (Digest × β) :=
  m.keys.sort.filterMap fun d => (m.lookup d).map (d, ·)

def rootNodeOf (st : BuildState) (root : NarLsEntry) : RootNode :=
  match root.kind with
  | .directory => .dirDigest (st.dirDigests 0).1
  | .regular =>
    .file { name := [], digest := root.fileDigest.1, size := root.size
            executable := root.executable }
  | .symlink => .symlink { name := [], target := root.target }

/-- `none` where the source panics. -/
def build (entries : List NarLsEntry) : Option DirectoryDag :=
  match entries.head?, childrenOf entries with
  | some root, some children =>
    let st := buildDirs k entries children
    some
      { directories := sortedRows (st.built.foldl (addBody k) ∅)
        fileBlobs := sortedRows (entries.foldl addBlob (∅, 0)).1
        rootNode := k.encodeRootNode (rootNodeOf st root)
        rootDigest := if root.kind = .directory then (st.dirDigests 0).1 else []
        dirDigests := (List.range entries.length).map st.dirDigests }
  | _, _ => none

def builtDirectories (entries : List NarLsEntry) : List Directory :=
  match childrenOf entries with
  | some children => (buildDirs k entries children).built
  | none => []

end RioBuild.Castore
