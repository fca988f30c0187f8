import RioBuild.Castore.Validate
import RioBuild.Lib.Search

/-! The checks on the first message of a chunked upload.  Sums of chunk sizes are unbounded here;
they are at most the size of the archive. -/

namespace RioBuild.Chunked

open Lib Castore Nar

def maxBatchOutputs : Nat := 16
def maxInputClosure : Nat := 50000
def maxDirNodes : Nat := 1048576
def maxReferences : Nat := 10000
def maxNarSize : Nat := 4 * 1024 * 1024 * 1024
def fastcdcMinBytes : Nat := 16 * 1024
def fastcdcMaxBytes : Nat := 256 * 1024
def maxChunks : Nat := maxNarSize / fastcdcMinBytes + maxNarEntries

structure ChunkMeta where
  digest : Bytes
  size : UInt64
  deriving DecidableEq, Repr

structure ChunkedOutput where
  storePath : Bytes
  narHash : Bytes
  narSize : UInt64
  references : List Bytes
  rootNode : Option RootNode
  chunkManifest : List ChunkMeta
  deriving DecidableEq, Repr

structure PutPathChunkedBegin where
  deriver : Bytes
  outputs : List ChunkedOutput
  directories : List Directory
  novel : List Bytes
  inputClosure : List Bytes
  deriving DecidableEq, Repr

structure AssignmentClaims where
  drvHash : Bytes
  expectedOutputs : List Bytes
  isCa : Bool
  inputClosureDigest : Bytes
  deriving DecidableEq, Repr

/-- A parsed store path is the string that was parsed. -/
structure StorePaths where
  parses : Bytes → Bool
  isDerivation : Bytes → Bool
  hashPart : Bytes → Bytes

structure FileRun where
  digest : Digest
  size : UInt64
  start : Nat
  stop : Nat
  deriving DecidableEq, Repr

structure ValidatedOutput where
  storePath : Bytes
  narHash : Digest
  narSize : UInt64
  references : List Bytes
  rootNode : RootNode
  chunkManifest : List (Digest × UInt32)
  isCa : Bool
  fileRuns : List FileRun
  deriving DecidableEq, Repr

structure ValidatedBegin where
  outputs : List ValidatedOutput
  directories : Map Digest Directory
  novel : List Digest

/-- Why a message is refused; the texts are left out.  `panicked` is for what was checked
before. -/
inductive BeginError
  | noOutputs
  | tooMany (field : String) (got max : Nat)
  | inputClosureMismatch (paths : Nat)
  | badInputClosurePath (path : Bytes)
  | badDeriver (deriver : Bytes)
  | deriverNotDrv
  | deriverMismatch
  | badDirectory (i : Nat) (e : DirectoryError)
  | duplicateDirectory (i : Nat) (digest : Digest)
  | duplicateOutput
  | badStorePath (i : Nat)
  | unauthorized (i : Nat)
  | badNarHash (i len : Nat)
  | badNarSize (i : Nat) (size : UInt64)
  | foreignReference (i : Nat)
  | badReference (i : Nat)
  | badChunkDigest (i j len : Nat)
  | badChunkSize (i j : Nat) (size : UInt64)
  | manifestTooLong (i blobLen : Nat) (narSize : UInt64)
  | rootUnset (i : Nat)
  | rootOneofUnset (i : Nat)
  | badRootDirDigest (i len : Nat)
  | badRootFileDigest (i len : Nat)
  | badRootTarget (i len : Nat)
  | missingRoot (i : Nat) (digest : Digest)
  | missingDirectory (digest : Digest)
  | unreachableDirectory
  | badEntrySize (size : UInt64) (digest : Digest)
  | treeWalk (i : Nat) (e : WalkError)
  | manifestExhausted (i cursor uncovered : Nat) (digest : Digest)
  | straddlingChunk (i : Nat) (size : UInt64) (covered : Nat)
  | trailingChunks (i count : Nat)
  | twoSizes (i : Nat) (digest : Digest) (size : UInt32)
  | badNovelDigest (j len : Nat)
  | unknownNovel (j : Nat)
  | novelOrder (j : Nat)
  | panicked
  deriving DecidableEq, Repr

def checkBound (field : String) (got max : Nat) : Except BeginError Unit :=
  if got > max then .error (.tooMany field got max) else .ok ()

def digestInputClosure (blake3 : Bytes → Digest) (closure : List Bytes) : Bytes :=
  hexEncode (blake3 (closure.intersperse [10]).flatten).1

def checkInputClosure (blake3 : Bytes → Digest) (paths : StorePaths) (begin : PutPathChunkedBegin)
    (claims : AssignmentClaims) : Except BeginError Unit := do
  if claims.inputClosureDigest ≠ [] ∧
      digestInputClosure blake3 begin.inputClosure ≠ claims.inputClosureDigest then
    throw (.inputClosureMismatch begin.inputClosure.length)
  forM begin.inputClosure fun p =>
    if !paths.parses p then throw (.badInputClosurePath p) else pure ()

def deriverMatchesDrvHash (paths : StorePaths) (deriver drvHash : Bytes) : Bool :=
  paths.hashPart deriver = drvHash ||
    (paths.parses drvHash && paths.hashPart drvHash = paths.hashPart deriver)

def checkDeriver (paths : StorePaths) (begin : PutPathChunkedBegin) (claims : AssignmentClaims) :
    Except BeginError Unit := do
  if !paths.parses begin.deriver then throw (.badDeriver begin.deriver)
  if !paths.isDerivation begin.deriver then throw .deriverNotDrv
  if !claims.isCa && !deriverMatchesDrvHash paths begin.deriver claims.drvHash then
    throw .deriverMismatch

def addDirectory (k : Codec) (directories : Map Digest Directory) (x : Directory × Nat) :
    Except BeginError (Map Digest Directory) :=
  match validateDirectory x.1 with
  | .error e => .error (.badDirectory x.2 e)
  | .ok () =>
    if k.directoryDigest x.1 ∈ directories.keys then
      .error (.duplicateDirectory x.2 (k.directoryDigest x.1))
    else .ok (directories.insert (k.directoryDigest x.1) x.1)

def collectDirectories (k : Codec) (ds : List Directory) :
    Except BeginError (Map Digest Directory) :=
  ds.zipIdx.foldlM (addDirectory k) ∅

def addOutputPath (seen : Finset Bytes) (o : ChunkedOutput) : Except BeginError (Finset Bytes) :=
  if o.storePath ∈ seen then .error .duplicateOutput else .ok (insert o.storePath seen)

def collectRefs (begin : PutPathChunkedBegin) : Except BeginError (Finset Bytes) := do
  let outputs ← begin.outputs.foldlM addOutputPath ∅
  return outputs ∪ begin.inputClosure.toFinset

def checkReference (paths : StorePaths) (allowedRefs : Finset Bytes) (i : Nat) (r : Bytes) :
    Except BeginError Bytes :=
  if r ∉ allowedRefs then .error (.foreignReference i)
  else if !paths.parses r then .error (.badReference i)
  else .ok r

def checkChunk (i : Nat) (x : ChunkMeta × Nat) : Except BeginError (Digest × UInt32) :=
  match toDigest x.1.digest with
  | none => .error (.badChunkDigest i x.2 x.1.digest.length)
  | some digest =>
    if x.1.size = 0 ∨ x.1.size.toNat > fastcdcMaxBytes then .error (.badChunkSize i x.2 x.1.size)
    else .ok (digest, x.1.size.toUInt32)

def decodeRootNode (root : Option RootNode) (i : Nat) : Except BeginError RootNode :=
  match root with
  | none => .error (.rootUnset i)
  | some .unset => .error (.rootOneofUnset i)
  | some (.dirDigest d) =>
    if d.length ≠ 32 then .error (.badRootDirDigest i d.length) else .ok (.dirDigest d)
  | some (.file f) =>
    if f.digest.length ≠ 32 then .error (.badRootFileDigest i f.digest.length) else .ok (.file f)
  | some (.symlink s) =>
    if !validTarget s.target then .error (.badRootTarget i s.target.length) else .ok (.symlink s)

def manifestBytes (manifest : List (Digest × UInt32)) : Nat :=
  (manifest.map fun c => c.2.toNat).sum

def checkOutput (paths : StorePaths) (claims : AssignmentClaims) (allowedRefs : Finset Bytes)
    (x : ChunkedOutput × Nat) : Except BeginError ValidatedOutput := do
  let o := x.1
  let i := x.2
  if !paths.parses o.storePath then throw (.badStorePath i)
  if !claims.isCa && !claims.expectedOutputs.contains o.storePath then throw (.unauthorized i)
  match toDigest o.narHash with
  | none => throw (.badNarHash i o.narHash.length)
  | some narHash => do
    if o.narSize = 0 ∨ o.narSize.toNat > maxNarSize then throw (.badNarSize i o.narSize)
    checkBound "references (per output)" o.references.length maxReferences
    let references ← o.references.mapM (checkReference paths allowedRefs i)
    checkBound "chunk_manifest entries" o.chunkManifest.length maxChunks
    let chunkManifest ← o.chunkManifest.zipIdx.mapM (checkChunk i)
    if manifestBytes chunkManifest > o.narSize.toNat then
      throw (.manifestTooLong i (manifestBytes chunkManifest) o.narSize)
    let rootNode ← decodeRootNode o.rootNode i
    return { storePath := o.storePath, narHash, narSize := o.narSize, references, rootNode
             chunkManifest, isCa := claims.isCa, fileRuns := [] }

def childDigests (d : Directory) : List Digest := d.directories.filterMap fun e => toDigest e.digest

def addRoot (directories : Map Digest Directory) (x : Finset Digest × List Digest)
    (out : ValidatedOutput × Nat) : Except BeginError (Finset Digest × List Digest) :=
  match out.1.rootNode with
  | .dirDigest d =>
    match toDigest d with
    | none => .error .panicked
    | some digest =>
      if digest ∉ directories.keys then .error (.missingRoot out.2 digest)
      else if digest ∈ x.1 then .ok x
      else .ok (insert digest x.1, digest :: x.2)
  | _ => .ok x

def successors (directories : Map Digest Directory) (digest : Digest) : Option (List Digest) :=
  (directories.lookup digest).map childDigests

def mentioned (directories : Map Digest Directory) : List Digest :=
  (sortedRows directories).flatMap fun row => childDigests row.2

def reachableDigests (outputs : List ValidatedOutput) (directories : Map Digest Directory) :
    Except BeginError (Finset Digest) := do
  let x ← outputs.zipIdx.foldlM (addRoot directories) (∅, [])
  match Search.visit (successors directories) ((mentioned directories).length + x.2.length)
      x.1 x.2 with
  | .error digest => throw (.missingDirectory digest)
  | .ok reached => return reached

def checkedAdd (a b : UInt64) : Option UInt64 :=
  if a.toNat + b.toNat < 2 ^ 64 then some (a + b) else none

def claimedDescendants (d : Directory) : Option UInt64 :=
  d.directories.foldlM (fun acc c => checkedAdd acc c.size) (UInt64.ofNat (entryCount d))

def checkEntrySize (directories : Map Digest Directory) (e : DirectoryEntry) :
    Except BeginError Unit :=
  match toDigest e.digest with
  | none => .error .panicked
  | some digest =>
    match directories.lookup digest with
    | none => .error .panicked
    | some child =>
      if claimedDescendants child ≠ some e.size then .error (.badEntrySize e.size digest)
      else .ok ()

/-- The order of the bodies is that of a hash map in the source. -/
def checkDirectoryEntrySizes (directories : Map Digest Directory) : Except BeginError Unit :=
  forM (sortedRows directories) fun row => forM row.2.directories (checkEntrySize directories)

/-- How many chunks from the front it takes to cover `size` bytes, and how many bytes they are;
`none` if the chunks do not suffice. -/
def coverFile (size : Nat) : List (Digest × UInt32) → Nat → Nat → Option (Nat × Nat)
  | [], taken, covered => if covered < size then none else some (taken, covered)
  | c :: rest, taken, covered =>
    if covered < size then coverFile size rest (taken + 1) (covered + c.2.toNat)
    else some (taken, covered)

def alignFile (i : Nat) (manifest : List (Digest × UInt32)) (x : List FileRun × Nat) :
    WalkEvent → Except BeginError (List FileRun × Nat)
  | .file _ digest size _ =>
    match coverFile size.toNat (manifest.drop x.2) 0 0 with
    | none =>
      .error (.manifestExhausted i manifest.length
        (size.toNat - manifestBytes (manifest.drop x.2)) digest)
    | some (taken, covered) =>
      if covered ≠ size.toNat then .error (.straddlingChunk i size covered)
      else .ok (x.1 ++ [⟨digest, size, x.2, x.2 + taken⟩], x.2 + taken)
  | _ => .ok x

def alignChunkRuns (i : Nat) (out : ValidatedOutput) (directories : Map Digest Directory) :
    Except BeginError (List FileRun) := do
  let events := walk out.rootNode directories maxNarEntries
  let x ← events.1.foldlM (alignFile i out.chunkManifest) ([], 0)
  match events.2 with
  | some e => throw (.treeWalk i e)
  | none =>
    if x.2 ≠ out.chunkManifest.length then
      throw (.trailingChunks i (out.chunkManifest.length - x.2))
    return x.1

def addSize (i : Nat) (sizes : Map Digest UInt32) (c : Digest × UInt32) :
    Except BeginError (Map Digest UInt32) :=
  match sizes.lookup c.1 with
  | some s => if s ≠ c.2 then .error (.twoSizes i c.1 c.2) else .ok sizes
  | none => .ok (sizes.insert c.1 c.2)

def checkSizes (outputs : List ValidatedOutput) : Except BeginError (Map Digest UInt32) :=
  outputs.zipIdx.foldlM (fun sizes out => out.1.chunkManifest.foldlM (addSize out.2) sizes) ∅

def manifestDigests (outputs : List ValidatedOutput) : List Digest :=
  outputs.flatMap fun out => out.chunkManifest.map Prod.fst

def addFirst (first : Map Digest Nat) (d : Digest) : Map Digest Nat :=
  if d ∈ first.keys then first else first.insert d first.keys.card

def firstOccurrence (outputs : List ValidatedOutput) : Map Digest Nat :=
  (manifestDigests outputs).foldl addFirst ∅

def addNovel (first : Map Digest Nat) (x : Option Nat × List Digest) (d : Bytes × Nat) :
    Except BeginError (Option Nat × List Digest) :=
  match toDigest d.1 with
  | none => .error (.badNovelDigest d.2 d.1.length)
  | some digest =>
    match first.lookup digest with
    | none => .error (.unknownNovel d.2)
    | some pos =>
      if x.1.any (pos ≤ ·) then .error (.novelOrder d.2)
      else .ok (some pos, x.2 ++ [digest])

def validateNovel (novel : List Bytes) (outputs : List ValidatedOutput) :
    Except BeginError (List Digest) := do
  checkBound "novel digests" novel.length (maxBatchOutputs * maxChunks)
  let x ← novel.zipIdx.foldlM (addNovel (firstOccurrence outputs)) (none, [])
  return x.2

def alignOutput (directories : Map Digest Directory) (x : ValidatedOutput × Nat) :
    Except BeginError ValidatedOutput := do
  let runs ← alignChunkRuns x.2 x.1 directories
  return { x.1 with fileRuns := runs }

def validateBegin (k : Codec) (paths : StorePaths) (begin : PutPathChunkedBegin)
    (claims : AssignmentClaims) : Except BeginError ValidatedBegin := do
  if begin.outputs = [] then throw .noOutputs
  checkBound "outputs" begin.outputs.length maxBatchOutputs
  checkBound "input_closure paths" begin.inputClosure.length maxInputClosure
  checkBound "directories" begin.directories.length maxDirNodes
  checkInputClosure k.blake3 paths begin claims
  checkDeriver paths begin claims
  let directories ← collectDirectories k begin.directories
  let allowedRefs ← collectRefs begin
  let outputs ← begin.outputs.zipIdx.mapM (checkOutput paths claims allowedRefs)
  let reachable ← reachableDigests outputs directories
  if reachable.card ≠ directories.keys.card then throw .unreachableDirectory
  checkDirectoryEntrySizes directories
  let outputs ← outputs.zipIdx.mapM (alignOutput directories)
  let _ ← checkSizes outputs
  let novel ← validateNovel begin.novel outputs
  return { outputs, directories, novel }

end RioBuild.Chunked
