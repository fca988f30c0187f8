import RioBuild.Castore.Types
import RioBuild.Lib.Maps

/-! The inode table of the castore mount: how it is built from the input roots and the
directory bodies, and what it serves.  Inode numbers are unbounded here; the table has one
for each path at most. -/

namespace RioBuild.Fuse

open Lib Castore

inductive Node
  | file (fileDigest : Digest) (size : UInt64) (executable : Bool)
  | dir (dirDigest : Digest)
  | symlink (target : Bytes)
  deriving DecidableEq, Repr

inductive FileType
  | directory | regularFile | symlink
  deriving DecidableEq, Repr

inductive TreeError
  | missingRootNode (storePath : Bytes)
  | badDigestLen (context : Bytes) (got : Nat)
  | badStorePath (storePath : Bytes)
  | duplicateBasename (basename : Bytes)
  | missingDirectory (digest : Bytes) (returned : Nat)
  deriving DecidableEq, Repr

def rootIno : Nat := 1

structure InoAlloc where
  next : Nat := rootIno + 1
  files : Map (Digest × Bool) Nat := ∅
  symlinks : Map Bytes Nat := ∅

namespace InoAlloc

def dir (a : InoAlloc) : Nat × InoAlloc := (a.next, { a with next := a.next + 1 })

def file (fileDigest : Digest) (executable : Bool) (a : InoAlloc) : Nat × InoAlloc :=
  match a.files.lookup (fileDigest, executable) with
  | some ino => (ino, a)
  | none =>
    (a.next, { a with next := a.next + 1, files := a.files.insert (fileDigest, executable) a.next })

def symlink (target : Bytes) (a : InoAlloc) : Nat × InoAlloc :=
  match a.symlinks.lookup target with
  | some ino => (ino, a)
  | none => (a.next, { a with next := a.next + 1, symlinks := a.symlinks.insert target a.next })

end InoAlloc

def digest32 (bytes context : Bytes) : Except TreeError Digest :=
  match toDigest bytes with
  | some digest => .ok digest
  | none => .error (.badDigestLen context bytes.length)

structure Table where
  alloc : InoAlloc := {}
  inodes : Map Nat Node := ∅
  nlink : Map Nat UInt32 := ∅

namespace Table

/-- An inode for one more path; `*nlink.entry(ino).or_insert(0) += 1`. -/
def link (ino : Nat) (alloc : InoAlloc) (node : Node) (t : Table) : Table where
  alloc := alloc
  inodes := t.inodes.insert ino node
  nlink := t.nlink.insert ino ((t.nlink.lookup ino).getD 0 + 1)

def insertFile (f : FileEntry) (context : Bytes) (t : Table) : Except TreeError (Nat × Table) :=
  match digest32 f.digest context with
  | .error e => .error e
  | .ok digest =>
    let (ino, alloc) := t.alloc.file digest f.executable
    .ok (ino, t.link ino alloc (.file digest f.size f.executable))

def insertSymlink (s : SymlinkEntry) (t : Table) : Nat × Table :=
  let (ino, alloc) := t.alloc.symlink s.target
  (ino, t.link ino alloc (.symlink s.target))

def insertDir (digest : Digest) (t : Table) : Nat × Table :=
  let (ino, alloc) := t.alloc.dir
  (ino, { t with alloc := alloc, inodes := t.inodes.insert ino (.dir digest) })

end Table

structure DirChildren where
  parentIno : Nat
  entries : List (Bytes × Nat × FileType)
  byName : Map Bytes Nat
  nlink : UInt32

structure Pending where
  ino : Nat
  digest : Digest
  parentIno : Nat

/-- A build in progress; the last pending directory is the first of the list. -/
structure Build where
  table : Table := {}
  roots : Map Bytes Nat := ∅
  rootNlink : UInt32 := 2
  pending : List Pending := []
  children : Map Nat DirChildren := ∅

def basename (storePath : Bytes) : Bytes :=
  (storePath.reverse.takeWhile (· ≠ 47)).reverse

namespace Build

def insertRoot (storePath : Bytes) (b : Build) : RootNode → Except TreeError (Nat × Build)
  | .dirDigest d =>
    match digest32 d storePath with
    | .error e => .error e
    | .ok digest =>
      let (ino, table) := b.table.insertDir digest
      .ok (ino,
        { b with
          table := table
          pending := ⟨ino, digest, rootIno⟩ :: b.pending
          rootNlink := b.rootNlink + 1 })
  | .file f =>
    match b.table.insertFile f storePath with
    | .error e => .error e
    | .ok (ino, table) => .ok (ino, { b with table := table })
  | .symlink s =>
    let (ino, table) := b.table.insertSymlink s
    .ok (ino, { b with table := table })
  | .unset => .error (.missingRootNode storePath)

def addRoot (b : Build) (root : Bytes × RootNode) : Except TreeError Build :=
  if basename root.1 = [] then .error (.badStorePath root.1)
  else
    match b.insertRoot root.1 root.2 with
    | .error e => .error e
    | .ok (ino, b) =>
      if basename root.1 ∈ b.roots.keys then .error (.duplicateBasename (basename root.1))
      else .ok { b with roots := b.roots.insert (basename root.1) ino }

end Build

structure Expansion where
  table : Table
  pending : List Pending
  entries : List (Bytes × Nat × FileType) := []

namespace Expansion

def addDirectory (selfIno : Nat) (context : Bytes) (x : Expansion) (e : DirectoryEntry) :
    Except TreeError Expansion :=
  match digest32 e.digest context with
  | .error err => .error err
  | .ok digest =>
    let (ino, table) := x.table.insertDir digest
    .ok
      { table := table
        pending := ⟨ino, digest, selfIno⟩ :: x.pending
        entries := x.entries ++ [(e.name, ino, .directory)] }

def addFile (context : Bytes) (x : Expansion) (f : FileEntry) : Except TreeError Expansion :=
  match x.table.insertFile f context with
  | .error err => .error err
  | .ok (ino, table) =>
    .ok { x with table := table, entries := x.entries ++ [(f.name, ino, .regularFile)] }

def addSymlink (x : Expansion) (s : SymlinkEntry) : Expansion :=
  let (ino, table) := x.table.insertSymlink s
  { x with table := table, entries := x.entries ++ [(s.name, ino, .symlink)] }

def addBody (selfIno : Nat) (context : Bytes) (body : Directory) (x : Expansion) :
    Except TreeError Expansion := do
  let x ← body.directories.foldlM (addDirectory selfIno context) x
  let x ← body.files.foldlM (addFile context) x
  return body.symlinks.foldl addSymlink x

end Expansion

namespace Build

variable (dirs : Map Digest Directory) (returned : Nat)

def expand (top : Pending) (rest : List Pending) (b : Build) : Except TreeError Build :=
  match dirs.lookup top.digest with
  | none => .error (.missingDirectory (hexEncode top.digest.1) returned)
  | some dir =>
    match Expansion.addBody top.ino (hexEncode top.digest.1) dir ⟨b.table, rest, []⟩ with
    | .error e => .error e
    | .ok x => .ok
      { b with
        table := x.table
        pending := x.pending
        children := b.children.insert top.ino
          { parentIno := top.parentIno
            entries := x.entries
            byName := x.entries.foldl (fun m e => m.insert e.1 e.2.1) ∅
            nlink := 2 + UInt32.ofNat dir.directories.length } }

/-- The loop over the pending directories; `none` if it goes on for longer than the fuel. -/
def loop : Nat → Build → Option (Except TreeError Build)
  | fuel, b =>
    match b.pending with
    | [] => some (.ok b)
    | top :: rest =>
      match fuel with
      | 0 => none
      | fuel + 1 =>
        match b.expand dirs returned top rest with
        | .error e => some (.error e)
        | .ok b => loop fuel b

end Build

structure InoMap where
  inodes : Map Nat Node
  children : Map Nat DirChildren
  roots : Map Bytes Nat
  nlink : Map Nat UInt32
  rootNlink : UInt32

def Build.finish (b : Build) : InoMap where
  inodes := b.table.inodes
  children := b.children
  roots := b.roots
  nlink := b.table.nlink
  rootNlink := b.rootNlink

/-- `directoryDigest` is the BLAKE3 digest of a body's canonical encoding. -/
def dirsOf (directoryDigest : Directory → Digest) (directories : List Directory) :
    Map Digest Directory :=
  directories.foldl (fun m d => m.insert (directoryDigest d) d) ∅

def InoMap.fromParts (directoryDigest : Directory → Digest) (fuel : Nat)
    (roots : List (Bytes × RootNode)) (directories : List Directory) :
    Option (Except TreeError InoMap) :=
  match roots.foldlM Build.addRoot {} with
  | .error e => some (.error e)
  | .ok b =>
    (b.loop (dirsOf directoryDigest directories) directories.length fuel).map
      (Except.map Build.finish)

structure FileAttr where
  ino : Nat
  size : UInt64
  blocks : UInt64
  kind : FileType
  perm : UInt16
  nlink : UInt32
  deriving DecidableEq, Repr

/-- `size.div_ceil(512)`. -/
def divCeil512 (size : UInt64) : UInt64 := size / 512 + if size % 512 = 0 then 0 else 1

def makeAttr (ino : Nat) (kind : FileType) (size : UInt64) (perm : UInt16) (nlink : UInt32) :
    FileAttr :=
  { ino, size, blocks := divCeil512 size, kind, perm, nlink }

def Node.kind : Node → FileType
  | .file .. => .regularFile
  | .dir .. => .directory
  | .symlink .. => .symlink

namespace InoMap

def attr (m : InoMap) (ino : Nat) : Option FileAttr :=
  if ino = rootIno then some (makeAttr ino .directory 0 0o555 m.rootNlink)
  else
    match m.inodes.lookup ino with
    | none => none
    | some (.dir _) =>
      some (makeAttr ino .directory 0 0o555
        (((m.children.lookup ino).map DirChildren.nlink).getD 2))
    | some (.file _ size executable) =>
      some (makeAttr ino .regularFile size (if executable then 0o555 else 0o444)
        ((m.nlink.lookup ino).getD 1))
    | some (.symlink target) =>
      some (makeAttr ino .symlink (UInt64.ofNat target.length) 0o777 ((m.nlink.lookup ino).getD 1))

def lookup (m : InoMap) (parentIno : Nat) (name : Bytes) : Option (Nat × FileAttr) :=
  let ino :=
    if parentIno = rootIno then m.roots.lookup name
    else (m.children.lookup parentIno).bind fun c => c.byName.lookup name
  ino.bind fun ino => (m.attr ino).map (ino, ·)

structure DirEntry where
  ino : Nat
  nextOffset : Nat
  kind : FileType
  name : Bytes
  deriving DecidableEq, Repr

def listing (m : InoMap) (ino : Nat) : Option (Nat × List (Bytes × Nat × FileType)) :=
  if ino = rootIno then
    some (rootIno, m.roots.keys.sort.filterMap fun name =>
      (m.roots.lookup name).map fun child =>
        (name, child, ((m.inodes.lookup child).map Node.kind).getD .regularFile))
  else (m.children.lookup ino).map fun c => (c.parentIno, c.entries)

def dots (ino parentIno : Nat) : List (Bytes × Nat × FileType) :=
  [([46], ino, .directory), ([46, 46], parentIno, .directory)]

def readdir (m : InoMap) (ino : Nat) (offset : Nat) : Option (List DirEntry) :=
  (m.listing ino).map fun x =>
    ((dots ino x.1 ++ x.2).mapIdx fun i e =>
      { ino := e.2.1, nextOffset := i + 1, kind := e.2.2, name := e.1 }).drop offset

def walk (m : InoMap) : Nat → List Bytes → Option Nat
  | ino, [] => some ino
  | ino, name :: names => (m.lookup ino name).bind fun x => m.walk x.1 names

end InoMap

end RioBuild.Fuse
