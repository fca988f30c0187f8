import RioBuild.Nar.Reader

namespace RioBuild.Nar

open Lib Nar.Frame

def streamChunk : Nat := 256 * 1024

def nameMax : Nat := 255

/-- `PATH_MAX`, with the final zero byte. -/
def pathMax : Nat := 4096

def find? (name : Bytes) : Entries Bytes → Option (Node Bytes)
  | .nil => none
  | .leaf n l rest => if n = name then some (.leaf l) else find? name rest
  | .dir n kids rest => if n = name then some (.dir kids) else find? name rest

def place (name : Bytes) (t : Node Bytes) : Entries Bytes → Entries Bytes
  | .nil => t.cons name .nil
  | .leaf n l rest =>
    if name < n then t.cons name (.leaf n l rest) else .leaf n l (place name t rest)
  | .dir n kids rest =>
    if name < n then t.cons name (.dir n kids rest) else .dir n kids (place name t rest)

def isDot (name : Bytes) : Bool := name = ascii "." ∨ name = ascii ".."

/-- How a file system answers: the order of a listing, which may name the directory and its parent,
and the length of a read at an offset of a file. -/
structure Disk where
  listing : List Bytes → Entries Bytes → List Bytes
  reads : List Bytes → Nat → Nat
  lists : ∀ path kids, ∃ dots : List Bytes, (∀ d ∈ dots, isDot d) ∧
    (listing path kids).Perm (dots ++ kids.names)

/-- The copying loop: reads of at most a chunk, of any length but none before the end. -/
def copyChunks (short : Nat → Nat) : (fuel remaining : Nat) → Bytes → Bytes → Option (Bytes × Bytes)
  | _, 0, done, rest => some (done, rest)
  | 0, _ + 1, _, _ => none
  | fuel + 1, remaining + 1, done, rest =>
    let toRead := min streamChunk (remaining + 1)
    let buf := rest.take (min (max 1 (short done.length)) toRead)
    if buf = [] then none
    else copyChunks short fuel (remaining + 1 - buf.length) (done ++ buf) (rest.drop buf.length)

def streamRegular (disk : Disk) (path : List Bytes) (contents : Bytes) (executable : Bool) :
    Except NarError Bytes :=
  let len := UInt64.ofNat contents.length
  match copyChunks (disk.reads path) len.toNat len.toNat [] contents with
  | some (data, _) => .ok (regularHeader executable len ++ data ++ contentsPadding len)
  | none => .error (.io (.truncated len.toNat contents.length))

def streamSymlink (target : Bytes) : Except NarError Bytes :=
  if validUtf8 target then .ok (Frame.symlink target) else .error (.io (.notUtf8 target))

def streamEntries (streamChild : Bytes → Except NarError Bytes) :
    List Bytes → Except NarError Bytes
  | [] => .ok []
  | name :: names =>
    if validUtf8 name then do
      let node ← streamChild name
      let rest ← streamEntries streamChild names
      return entryOpen name ++ node ++ entryClose ++ rest
    else .error (.io (.notUtf8 name))

/-- `streamChild` is the walk one level down. -/
def streamDirectory (disk : Disk) (path : List Bytes) (kids : Entries Bytes)
    (streamChild : Bytes → Except NarError Bytes) : Except NarError Bytes := do
  let names := (disk.listing path kids).filter fun n => !isDot n
  if names.length ≥ maxDirectoryEntries then throw (.tooManyEntries names.length)
  let entries ← streamEntries streamChild (names.insertionSort (· ≤ ·))
  return directoryOpen ++ entries

def streamOpened (disk : Disk) (path : List Bytes)
    (streamChild : Entries Bytes → Bytes → Except NarError Bytes) :
    Option (Node Bytes) → Except NarError Bytes
  | none => .error (.io .notFound)
  | some (.leaf (.symlink target)) => streamSymlink target
  | some (.leaf (.regular contents executable)) => streamRegular disk path contents executable
  | some (.dir kids) => streamDirectory disk path kids (streamChild kids)

def streamNode (disk : Disk) : (left : Nat) → Entries Bytes → Bytes → List Bytes →
    Except NarError Bytes
  | 0, _, _, _ => .error (.nestingTooDeep (maxNarDepth + 1))
  | left + 1, parent, name, path => do
    let body ← streamOpened disk path
      (fun kids n => streamNode disk left kids n (path ++ [n])) (find? name parent)
    return nodeOpen ++ body ++ nodeClose

/-- The archive of what `parent` has under `name`, and its size. -/
def dumpPathStreaming (disk : Disk) (parent : Entries Bytes) (name : Bytes) :
    Except NarError (Bytes × UInt64) := do
  let node ← streamNode disk (maxNarDepth + 1) parent name [name]
  return (magic ++ node, UInt64.ofNat (magic ++ node).length)

/-- `O_CREAT|O_EXCL`, `mkdirat` and `symlinkat`. -/
def create (siblings : Entries Bytes) (name : Bytes) : Except NarError Unit :=
  if name.length > nameMax then .error (.io .nameTooLong)
  else if name ∈ siblings.names then .error (.io .alreadyExists)
  else .ok ()

def copyContents (short : Nat → Nat) (len : Nat) : Reader NarError Bytes := fun c =>
  match copyChunks (fun done => short (c.pos + done)) len len [] c.rest with
  | some (data, rest) => .ok (data, ⟨rest, c.pos + len⟩)
  | none => .error .unexpectedEof

def restoreRegular (short : Nat → Nat) (siblings : Entries Bytes) (name : Bytes) :
    Reader NarError (Leaf Bytes) := do
  let executable ← readExecutable
  let len ← readU64
  create siblings name
  let contents ← copyContents short len.toNat
  consumePadding len.toNat
  expectStr (ascii ")")
  return .regular contents executable

def restoreSymlink (siblings : Entries Bytes) (name : Bytes) : Reader NarError (Leaf Bytes) := do
  let target ← readTarget
  if target.contains 0 then throw (.io .containsNul)
  if target = [] then throw (.io .notFound)
  if target.length ≥ pathMax then throw (.io .nameTooLong)
  create siblings name
  expectStr (ascii ")")
  return .symlink target

def restorer (short : Nat → Nat) : Walker where
  regular := restoreRegular short
  symlink := restoreSymlink
  directory := create
  push entries name node := place name node entries

/-- What the directory holds afterwards, and what of the input has not been read.  The destination
is a file name. -/
def restorePathStreaming (short : Nat → Nat) (dir : Entries Bytes) (dest data : Bytes) :
    Except NarError (Entries Bytes × Cursor) := do
  let (node, c) ← readArchive (restorer short) dir dest data
  return (place dest node dir, c)

end RioBuild.Nar
