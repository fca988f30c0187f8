import RioBuild.Nar.Tree

/-! Archives into trees and back.  The in-memory parser and the restorer read the same tokens in the
same order and differ in what they do at a node, so there is one reader for both. -/

namespace RioBuild.Nar

open Lib

def maxContentSize : Nat := 256 * 1024 * 1024

def validUtf8 (b : Bytes) : Bool := (ByteArray.mk b.toArray).validateUTF8

def validUpTo (b : Bytes) : Nat := Nat.findGreatest (fun i => validUtf8 (b.take i)) b.length

def fromUtf8 (context : String) (b : Bytes) : Except NarError Bytes :=
  if validUtf8 b then .ok b else .error (.invalidUtf8 context (validUpTo b))

def readString : Reader NarError Bytes := do
  let bytes ← readTargetBytes
  fromUtf8 "token" bytes

def expectStr (expected : Bytes) : Reader NarError Unit := do
  let got ← readString
  if got ≠ expected then throw (.unexpectedToken expected got)

def readBytesBounded (maxLen : Nat) : Reader NarError Bytes := do
  let len ← readU64
  if len.toNat > maxLen then throw (.contentTooLarge len)
  readPaddedBytes len.toNat

def readNodeType : Reader NarError NarEntryKind := do
  expectStr (ascii "(")
  expectStr (ascii "type")
  let nodeType ← readString
  if nodeType = ascii "regular" then return .regular
  else if nodeType = ascii "directory" then return .directory
  else if nodeType = ascii "symlink" then return .symlink
  else throw (.unknownNodeType nodeType)

def readExecutable : Reader NarError Bool := do
  let token ← readString
  if token = ascii "executable" then do
    expectStr []
    expectStr (ascii "contents")
    return true
  else if token = ascii "contents" then return false
  else throw (.unexpectedToken (ascii "\"executable\" or \"contents\"") token)

def readTarget : Reader NarError Bytes := do
  expectStr (ascii "target")
  let targetBytes ← readTargetBytes
  fromUtf8 "symlink target" targetBytes

/-- `validate_entry_name`; what is left of a name is text. -/
def validateEntryName (name : Bytes) : Except NarError Unit := validateEntryNameBytes name

def readEntryName (prevName : Option Bytes) : Reader NarError Bytes := do
  expectStr (ascii "(")
  expectStr (ascii "name")
  let nameBytes ← readNameBytes
  let name ← fromUtf8 "entry name" nameBytes
  validateEntryName name
  match unsorted prevName name with
  | some prev => throw (.unsortedEntries prev name)
  | none => do
    expectStr (ascii "node")
    return name

def readEntry : Reader NarError Bool := do
  let token ← readString
  if token = ascii ")" then return false
  else if token = ascii "entry" then return true
  else throw (.unexpectedToken (ascii "\"entry\" or \")\"") token)

/-- What is done at a node, given what its directory holds already and the node's name there. -/
structure Walker where
  regular : Entries Bytes → Bytes → Reader NarError (Leaf Bytes)
  symlink : Entries Bytes → Bytes → Reader NarError (Leaf Bytes)
  directory : Entries Bytes → Bytes → Except NarError Unit
  push : Entries Bytes → Bytes → Node Bytes → Entries Bytes

mutual

/-- Running out of fuel stands for the end of the input; with more fuel than bytes it does not
happen. -/
def readNode (w : Walker) : Nat → Entries Bytes → Bytes → Nat → Reader NarError (Node Bytes)
  | 0, _, _, _ => throw .unexpectedEof
  | fuel + 1, siblings, name, depth => do
    if depth > maxNarDepth then throw (.nestingTooDeep depth)
    match ← readNodeType with
    | .regular => return .leaf (← w.regular siblings name)
    | .symlink => return .leaf (← w.symlink siblings name)
    | .directory => do
      w.directory siblings name
      return .dir (← readEntries w fuel depth 0 none .nil)

def readEntries (w : Walker) :
    Nat → Nat → Nat → Option Bytes → Entries Bytes → Reader NarError (Entries Bytes)
  | 0, _, _, _, _ => throw .unexpectedEof
  | fuel + 1, depth, count, prevName, entries => do
    if count ≥ maxDirectoryEntries then throw (.tooManyEntries count)
    if ← readEntry then do
      let name ← readEntryName prevName
      let node ← readNode w fuel entries name (depth + 1)
      expectStr (ascii ")")
      readEntries w fuel depth (count + 1) (some name) (w.push entries name node)
    else return entries

end

def readArchive (w : Walker) (siblings : Entries Bytes) (name data : Bytes) :
    Except NarError (Node Bytes × Cursor) :=
  (do
    let magic ← readString
    if magic ≠ narMagic then throw (.invalidMagic magic)
    readNode w (data.length + 1) siblings name 0 : Reader NarError (Node Bytes)).run ⟨data, 0⟩

def parseRegular : Reader NarError (Leaf Bytes) := do
  let executable ← readExecutable
  let contents ← readBytesBounded maxContentSize
  expectStr (ascii ")")
  return .regular contents executable

def parseSymlink : Reader NarError (Leaf Bytes) := do
  let target ← readTarget
  expectStr (ascii ")")
  return .symlink target

/-- A vector of entries; nothing depends on the ones before. -/
def parser : Walker where
  regular _ _ := parseRegular
  symlink _ _ := parseSymlink
  directory _ _ := .ok ()
  push entries name node := entries.append (node.cons name .nil)

def parse (data : Bytes) : Except NarError (Node Bytes × Cursor) := readArchive parser .nil [] data

def writeStr (s : Bytes) : Bytes := writeBytes s

def serializeLeaf : Leaf Bytes → Bytes
  | .regular contents executable =>
    writeStr (ascii "regular") ++
      (if executable then writeStr (ascii "executable") ++ writeStr [] else []) ++
      writeStr (ascii "contents") ++ writeBytes contents ++ writeStr (ascii ")")
  | .symlink target =>
    writeStr (ascii "symlink") ++ writeStr (ascii "target") ++ writeStr target ++
      writeStr (ascii ")")

def serializeEntries : Entries Bytes → Bytes
  | .nil => []
  | .leaf name l rest =>
    writeStr (ascii "entry") ++ writeStr (ascii "(") ++ writeStr (ascii "name") ++ writeStr name ++
      writeStr (ascii "node") ++
      (writeStr (ascii "(") ++ writeStr (ascii "type") ++ serializeLeaf l) ++
      writeStr (ascii ")") ++ serializeEntries rest
  | .dir name kids rest =>
    writeStr (ascii "entry") ++ writeStr (ascii "(") ++ writeStr (ascii "name") ++ writeStr name ++
      writeStr (ascii "node") ++
      (writeStr (ascii "(") ++ writeStr (ascii "type") ++
        (writeStr (ascii "directory") ++ serializeEntries kids ++ writeStr (ascii ")"))) ++
      writeStr (ascii ")") ++ serializeEntries rest

def serializeNode : Node Bytes → Bytes
  | .leaf l => writeStr (ascii "(") ++ writeStr (ascii "type") ++ serializeLeaf l
  | .dir kids =>
    writeStr (ascii "(") ++ writeStr (ascii "type") ++
      (writeStr (ascii "directory") ++ serializeEntries kids ++ writeStr (ascii ")"))

def serialize (node : Node Bytes) : Bytes := writeStr narMagic ++ serializeNode node

end RioBuild.Nar
