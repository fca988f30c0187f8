import RioBuild.Castore.Types
import RioBuild.Nar.Wire

/-! The index of an archive, in one pass over it.  Positions are unbounded here. -/

namespace RioBuild.Nar

open Lib Castore

inductive NarEntryKind
  | regular | directory | symlink
  deriving DecidableEq, Repr

def zeroDigest : Digest := ⟨List.replicate 32 0, rfl⟩

structure NarLsEntry where
  path : Bytes
  kind : NarEntryKind
  size : UInt64 := 0
  executable : Bool := false
  narOffset : Nat := 0
  target : Bytes := []
  fileDigest : Digest := zeroDigest
  deriving DecidableEq, Repr

structure LsOut where
  entries : List NarLsEntry := []
  indexBytes : Nat := 0
  deriving DecidableEq, Repr

def LsOut.push (entry : NarLsEntry) (out : LsOut) : Except NarError LsOut :=
  if out.entries.length ≥ maxNarEntries then
    .error (.tooManyTotalEntries (out.entries.length + 1))
  else if out.indexBytes + (entry.path.length + entry.target.length) > maxNarIndexBytes then
    .error (.indexBytesTooLarge (out.indexBytes + (entry.path.length + entry.target.length)))
  else
    .ok
      { entries := out.entries ++ [entry]
        indexBytes := out.indexBytes + (entry.path.length + entry.target.length) }

def validComponent (name : Bytes) : Bool :=
  name ≠ [] && name ≠ [46] && name ≠ [46, 46] && !name.contains 47 && !name.contains 0

def validateEntryNameBytes (name : Bytes) : Except NarError Unit :=
  if validComponent name then .ok () else .error (.invalidEntryName name)

def childPath (path name : Bytes) : Bytes := if path = [] then name else path ++ 47 :: name

def lsExecutable : Reader NarError Bool := do
  let token ← readTargetBytes
  if token = ascii "executable" then do
    expectToken []
    expectToken (ascii "contents")
    return true
  else if token = ascii "contents" then return false
  else throw (.unexpectedToken (ascii "\"executable\" or \"contents\"") token)

variable (blake3 : Bytes → Digest)

def lsRegular (path : Bytes) (out : LsOut) : Reader NarError LsOut := do
  let executable ← lsExecutable
  let size ← readU64
  let narOffset := (← get).pos
  let contents ← readExact size.toNat
  consumePadding size.toNat
  expectToken (ascii ")")
  out.push { path, kind := .regular, size, executable, narOffset, fileDigest := blake3 contents }

def lsSymlink (path : Bytes) (out : LsOut) : Reader NarError LsOut := do
  expectToken (ascii "target")
  let target ← readTargetBytes
  expectToken (ascii ")")
  out.push { path, kind := .symlink, target }

def unsorted (prev : Option Bytes) (name : Bytes) : Option Bytes := prev.filter (name ≤ ·)

mutual

/-- Running out of fuel stands for the end of the input; with more fuel than bytes it does not
happen. -/
def lsNode : Nat → Bytes → Nat → LsOut → Reader NarError LsOut
  | 0, _, _, _ => throw .unexpectedEof
  | fuel + 1, path, depth, out => do
    if depth > maxNarDepth then throw (.nestingTooDeep depth)
    expectToken (ascii "(")
    expectToken (ascii "type")
    let nodeType ← readTargetBytes
    if nodeType = ascii "regular" then lsRegular blake3 path out
    else if nodeType = ascii "directory" then do
      let out ← out.push { path, kind := .directory }
      lsEntries fuel path depth 0 none out
    else if nodeType = ascii "symlink" then lsSymlink path out
    else throw (.unknownNodeType nodeType)

def lsEntries : Nat → Bytes → Nat → Nat → Option Bytes → LsOut → Reader NarError LsOut
  | 0, _, _, _, _, _ => throw .unexpectedEof
  | fuel + 1, path, depth, count, prevName, out => do
    if count ≥ maxDirectoryEntries then throw (.tooManyEntries count)
    let token ← readTargetBytes
    if token = ascii ")" then return out
    else if token = ascii "entry" then do
      expectToken (ascii "(")
      expectToken (ascii "name")
      let name ← readNameBytes
      validateEntryNameBytes name
      match unsorted prevName name with
      | some prev => throw (.unsortedEntries prev name)
      | none => do
        expectToken (ascii "node")
        let out ← lsNode fuel (childPath path name) (depth + 1) out
        expectToken (ascii ")")
        lsEntries fuel path depth (count + 1) (some name) out
    else throw (.unexpectedToken (ascii "\"entry\" or \")\"") token)

end

def narLs (data : Bytes) : Except NarError (List NarLsEntry × Cursor) :=
  (do
    let magic ← readTargetBytes
    if magic ≠ narMagic then throw (.invalidMagic magic)
    let out ← lsNode blake3 (data.length + 1) [] 0 {}
    return out.entries : Reader NarError (List NarLsEntry)).run ⟨data, 0⟩

end RioBuild.Nar
