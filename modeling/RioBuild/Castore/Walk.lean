import RioBuild.Castore.Build
import RioBuild.Lib.Guards

/-! The walk over a directory DAG in the order of the archive, and the archive written from it.
An iterator is what is left of the things it yields; after an error nothing is left. -/

namespace RioBuild.Castore

open Lib Nar List Guards

inductive WalkEvent
  | enterDir (name : Bytes)
  | leaveDir
  | file (name : Bytes) (digest : Digest) (size : UInt64) (executable : Bool)
  | symlink (name target : Bytes)
  deriving DecidableEq, Repr

inductive WalkError
  | missingDirectory (digest : Digest)
  | tooManyNodes (maxNodes : Nat)
  | tooDeep (depth : Nat)
  | indexBytesTooLarge (bytes : Nat)
  | badRoot (reason : String)
  deriving DecidableEq, Repr

inductive Child
  | dir (e : DirectoryEntry)
  | file (e : FileEntry)
  | symlink (e : SymlinkEntry)
  deriving DecidableEq, Repr

def Child.name : Child → Bytes
  | dir e => e.name
  | file e => e.name
  | symlink e => e.name

def Child.targetLen : Child → Nat
  | symlink e => e.target.length
  | dir _ | file _ => 0

def sortedChildren (d : Directory) : List Child :=
  (d.directories.map Child.dir ++
      (d.files.map Child.file ++ d.symlinks.map Child.symlink)).insertionSort
    fun a b => a.name ≤ b.name

structure WalkFrame where
  children : List Child
  prefixLen : Nat
  deriving DecidableEq, Repr

/-- The innermost directory is the first of the stack. -/
structure TreeWalk where
  stack : List WalkFrame := []
  pendingRoot : Option RootNode := none
  emitted : Nat := 0
  indexBytes : Nat := 0
  deriving DecidableEq, Repr

namespace TreeWalk

variable (dirs : Map Digest Directory) (maxNodes : Nat)

def enter (digest : Digest) (prefixLen : Nat) (w : TreeWalk) : Except WalkError TreeWalk :=
  match dirs.lookup digest with
  | none => .error (.missingDirectory digest)
  | some dir => .ok { w with stack := ⟨sortedChildren dir, prefixLen⟩ :: w.stack }

def bump (w : TreeWalk) : Except WalkError TreeWalk :=
  if w.emitted + 1 > maxNodes then .error (.tooManyNodes maxNodes)
  else .ok { w with emitted := w.emitted + 1 }

def chargeIndexBytes (n : Nat) (w : TreeWalk) : Except WalkError TreeWalk :=
  if w.indexBytes + n > maxNarIndexBytes then .error (.indexBytesTooLarge (w.indexBytes + n))
  else .ok { w with indexBytes := w.indexBytes + n }

def digestOr (bytes : Bytes) (reason : String) : Except WalkError Digest :=
  match toDigest bytes with
  | some digest => .ok digest
  | none => .error (.badRoot reason)

def stepRoot (root : RootNode) (w : TreeWalk) : Except WalkError (WalkEvent × TreeWalk) := do
  let w ← bump maxNodes { w with pendingRoot := none }
  match root with
  | .dirDigest d => do
    let digest ← digestOr d "dir_digest not 32 bytes"
    return (.enterDir [], ← w.enter dirs digest 0)
  | .file f => do
    let digest ← digestOr f.digest "file digest not 32 bytes"
    return (.file [] digest f.size f.executable, w)
  | .symlink s => do
    return (.symlink [] s.target, ← w.chargeIndexBytes s.target.length)
  | .unset => throw (.badRoot "RootNode.node unset")

/-- The next child; `w` has it taken off the innermost directory already. -/
def stepChild (child : Child) (prefixLen : Nat) (w : TreeWalk) :
    Except WalkError (WalkEvent × TreeWalk) := do
  if w.stack.length > maxNarDepth then throw (.tooDeep w.stack.length)
  let w ← w.bump maxNodes
  let w ← w.chargeIndexBytes (prefixLen + child.name.length + child.targetLen)
  match child with
  | .dir e => do
    let digest ← digestOr e.digest "child dir digest not 32 bytes"
    return (.enterDir e.name, ← w.enter dirs digest (prefixLen + e.name.length + 1))
  | .file e => do
    let digest ← digestOr e.digest "child file digest not 32 bytes"
    return (.file e.name digest e.size e.executable, w)
  | .symlink e => return (.symlink e.name e.target, w)

def step (w : TreeWalk) : Option (Except WalkError (WalkEvent × TreeWalk)) :=
  match w.pendingRoot with
  | some root => some (w.stepRoot dirs maxNodes root)
  | none =>
    match w.stack with
    | [] => none
    | ⟨[], _⟩ :: stack => some (.ok (.leaveDir, { w with stack := stack }))
    | ⟨child :: rest, prefixLen⟩ :: stack =>
      some (stepChild dirs maxNodes child prefixLen
        { w with stack := ⟨rest, prefixLen⟩ :: stack })

def bound (w : TreeWalk) : Nat :=
  2 * (maxNodes - w.emitted) + w.stack.length + (if w.pendingRoot.isSome then 1 else 0)

variable {dirs maxNodes} {w w' : TreeWalk} {ev : WalkEvent}

theorem bump_eq_ok : w.bump maxNodes = .ok w' ↔
    w.emitted + 1 ≤ maxNodes ∧ w' = { w with emitted := w.emitted + 1 } := by
  unfold bump
  refine ite_throw_eq_ok.trans ?_
  rw [gt_iff_lt, Nat.not_lt, Except.ok.injEq, eq_comm]

theorem chargeIndexBytes_eq_ok : w.chargeIndexBytes n = .ok w' ↔
    w.indexBytes + n ≤ maxNarIndexBytes ∧ w' = { w with indexBytes := w.indexBytes + n } := by
  unfold chargeIndexBytes
  refine ite_throw_eq_ok.trans ?_
  rw [gt_iff_lt, Nat.not_lt, Except.ok.injEq, eq_comm]

theorem enter_eq_ok : w.enter dirs digest n = .ok w' ↔ ∃ d, dirs.lookup digest = some d ∧
    w' = { w with stack := ⟨sortedChildren d, n⟩ :: w.stack } := by
  unfold enter
  cases dirs.lookup digest with
  | none => simp
  | some d => simp [eq_comm]

theorem digestOr_eq_ok : digestOr bytes reason = .ok digest ↔ bytes = digest.1 := by
  unfold digestOr
  rw [← toDigest_eq_some]
  cases toDigest bytes with
  | none | some d => simp

inductive Step (dirs : Map Digest Directory) (maxNodes : Nat) :
    TreeWalk → WalkEvent → TreeWalk → Prop
  | rootDir {stack : List WalkFrame} {n b : Nat} {digest : Digest} {d : Directory}
    (nodes : n + 1 ≤ maxNodes) (found : dirs.lookup digest = some d) :
    Step dirs maxNodes ⟨stack, some (.dirDigest digest.1), n, b⟩ (.enterDir [])
      ⟨⟨sortedChildren d, 0⟩ :: stack, none, n + 1, b⟩
  | rootFile {stack : List WalkFrame} {n b : Nat} {digest : Digest} {name : Bytes}
    {size : UInt64} {executable : Bool} (nodes : n + 1 ≤ maxNodes) :
    Step dirs maxNodes ⟨stack, some (.file ⟨name, digest.1, size, executable⟩), n, b⟩
      (.file [] digest size executable) ⟨stack, none, n + 1, b⟩
  | rootSymlink {stack : List WalkFrame} {n b : Nat} {name target : Bytes}
    (nodes : n + 1 ≤ maxNodes) (bytes : b + target.length ≤ maxNarIndexBytes) :
    Step dirs maxNodes ⟨stack, some (.symlink ⟨name, target⟩), n, b⟩ (.symlink [] target)
      ⟨stack, none, n + 1, b + target.length⟩
  | leave {stack : List WalkFrame} {n b l : Nat} :
    Step dirs maxNodes ⟨⟨[], l⟩ :: stack, none, n, b⟩ .leaveDir ⟨stack, none, n, b⟩
  | dir {stack : List WalkFrame} {n b l : Nat} {rest : List Child} {name : Bytes}
    {digest : Digest} {size : UInt64} {d : Directory} (depth : stack.length < maxNarDepth)
    (nodes : n + 1 ≤ maxNodes) (bytes : b + (l + name.length) ≤ maxNarIndexBytes)
    (found : dirs.lookup digest = some d) :
    Step dirs maxNodes ⟨⟨.dir ⟨name, digest.1, size⟩ :: rest, l⟩ :: stack, none, n, b⟩
      (.enterDir name)
      ⟨⟨sortedChildren d, l + name.length + 1⟩ :: ⟨rest, l⟩ :: stack, none, n + 1,
        b + (l + name.length)⟩
  | file {stack : List WalkFrame} {n b l : Nat} {rest : List Child} {name : Bytes}
    {digest : Digest} {size : UInt64} {executable : Bool} (depth : stack.length < maxNarDepth)
    (nodes : n + 1 ≤ maxNodes) (bytes : b + (l + name.length) ≤ maxNarIndexBytes) :
    Step dirs maxNodes
      ⟨⟨.file ⟨name, digest.1, size, executable⟩ :: rest, l⟩ :: stack, none, n, b⟩
      (.file name digest size executable)
      ⟨⟨rest, l⟩ :: stack, none, n + 1, b + (l + name.length)⟩
  | symlink {stack : List WalkFrame} {n b l : Nat} {rest : List Child} {name target : Bytes}
    (depth : stack.length < maxNarDepth) (nodes : n + 1 ≤ maxNodes)
    (bytes : b + (l + name.length + target.length) ≤ maxNarIndexBytes) :
    Step dirs maxNodes ⟨⟨.symlink ⟨name, target⟩ :: rest, l⟩ :: stack, none, n, b⟩
      (.symlink name target)
      ⟨⟨rest, l⟩ :: stack, none, n + 1, b + (l + name.length + target.length)⟩

variable {stack : List WalkFrame}

theorem stepRoot_eq_ok {root : RootNode} :
    stepRoot dirs maxNodes root ⟨stack, some root, n, b⟩ = .ok (ev, w') ↔
      Step dirs maxNodes ⟨stack, some root, n, b⟩ ev w' := by
  unfold stepRoot
  rw [bind_eq_ok]
  simp only [bump_eq_ok]
  constructor
  · rintro ⟨_, ⟨hn, rfl⟩, h⟩
    cases root with
    | unset => simp at h
    | dirDigest d =>
      simp only [bind_eq_ok, digestOr_eq_ok, enter_eq_ok] at h
      obtain ⟨digest, rfl, _, ⟨d, hd, rfl⟩, h⟩ := h
      cases h
      exact .rootDir hn hd
    | file f =>
      simp only [bind_eq_ok, digestOr_eq_ok] at h
      obtain ⟨digest, hdg, h⟩ := h
      obtain ⟨name, _, size, executable⟩ := f
      cases hdg
      cases h
      exact .rootFile hn
    | symlink s =>
      simp only [bind_eq_ok, chargeIndexBytes_eq_ok] at h
      obtain ⟨_, ⟨hb, rfl⟩, h⟩ := h
      cases h
      exact .rootSymlink hn hb
  · intro h
    cases h with
    | rootDir hn hd =>
      refine ⟨_, ⟨hn, rfl⟩, ?_⟩
      simp only [bind_eq_ok, digestOr_eq_ok, enter_eq_ok]
      exact ⟨_, rfl, _, ⟨_, hd, rfl⟩, rfl⟩
    | rootFile hn =>
      refine ⟨_, ⟨hn, rfl⟩, ?_⟩
      simp only [bind_eq_ok, digestOr_eq_ok]
      exact ⟨_, rfl, rfl⟩
    | rootSymlink hn hb =>
      refine ⟨_, ⟨hn, rfl⟩, ?_⟩
      simp only [bind_eq_ok, chargeIndexBytes_eq_ok]
      exact ⟨_, ⟨hb, rfl⟩, rfl⟩

theorem stepChild_eq_ok {child : Child} {rest : List Child} :
    stepChild dirs maxNodes child l ⟨⟨rest, l⟩ :: stack, none, n, b⟩ = .ok (ev, w') ↔
      Step dirs maxNodes ⟨⟨child :: rest, l⟩ :: stack, none, n, b⟩ ev w' := by
  unfold stepChild
  simp only [throw_bind, ite_throw_eq_ok, bind_eq_ok, bump_eq_ok,
    chargeIndexBytes_eq_ok, length_cons]
  constructor
  · rintro ⟨hde, _, ⟨hn, rfl⟩, _, ⟨hb, rfl⟩, h⟩
    have hde : stack.length < maxNarDepth := by omega
    cases child with
    | dir e =>
      simp only [bind_eq_ok, digestOr_eq_ok, enter_eq_ok] at h
      obtain ⟨digest, hdg, _, ⟨d, hd, rfl⟩, h⟩ := h
      obtain ⟨name, _, size⟩ := e
      cases hdg
      cases h
      exact .dir hde hn hb hd
    | file e =>
      simp only [bind_eq_ok, digestOr_eq_ok] at h
      obtain ⟨digest, hdg, h⟩ := h
      obtain ⟨name, _, size, executable⟩ := e
      cases hdg
      cases h
      exact .file hde hn hb
    | symlink e =>
      cases h
      exact .symlink hde hn hb
  · intro h
    cases h with
    | dir hde hn hb hd =>
      refine ⟨by omega, _, ⟨hn, rfl⟩, _, ⟨hb, rfl⟩, ?_⟩
      simp only [bind_eq_ok, digestOr_eq_ok, enter_eq_ok]
      exact ⟨_, rfl, _, ⟨_, hd, rfl⟩, rfl⟩
    | file hde hn hb =>
      refine ⟨by omega, _, ⟨hn, rfl⟩, _, ⟨hb, rfl⟩, ?_⟩
      simp only [bind_eq_ok, digestOr_eq_ok]
      exact ⟨_, rfl, rfl⟩
    | symlink hde hn hb =>
      exact ⟨by omega, _, ⟨hn, rfl⟩, _, ⟨hb, rfl⟩, rfl⟩

theorem step_eq_ok : w.step dirs maxNodes = some (.ok (ev, w')) ↔ Step dirs maxNodes w ev w' := by
  obtain ⟨stack, pending, n, b⟩ := w
  cases pending with
  | some root => exact Option.some_inj.trans stepRoot_eq_ok
  | none =>
    cases stack with
    | nil => exact iff_of_false nofun nofun
    | cons frame stack =>
      obtain ⟨children, l⟩ := frame
      cases children with
      | nil =>
        constructor
        · intro h
          cases h
          exact .leave
        · intro h
          cases h
          rfl
      | cons child rest => exact Option.some_inj.trans stepChild_eq_ok

theorem Step.bound_lt (h : Step dirs maxNodes w ev w') : w'.bound maxNodes < w.bound maxNodes := by
  cases h <;> simp [bound] <;> omega

def items (dirs : Map Digest Directory) (maxNodes : Nat) (w : TreeWalk) :
    List WalkEvent × Option WalkError :=
  match _h : w.step dirs maxNodes with
  | none => ([], none)
  | some (.error e) => ([], some e)
  | some (.ok (ev, w')) =>
    let r := items dirs maxNodes w'
    (ev :: r.1, r.2)
termination_by w.bound maxNodes
decreasing_by exact (step_eq_ok.mp _h).bound_lt

end TreeWalk

/-- `walk`, run to its end. -/
def walk (root : RootNode) (dirs : Map Digest Directory) (maxNodes : Nat) :
    List WalkEvent × Option WalkError :=
  TreeWalk.items dirs maxNodes { pendingRoot := some root }

inductive NarPiece
  | framing (bytes : Bytes)
  | contents (digest : Digest) (size : UInt64)
  deriving DecidableEq, Repr

def framingFlushBytes : Nat := 256 * 1024

structure NarPieces where
  walk : List WalkEvent × Option WalkError
  buf : Bytes := []
  pending : Option (Digest × UInt64) := none
  depth : Nat := 0
  deriving DecidableEq, Repr

namespace NarPieces

open Nar.Frame

def entryOpenAt (depth : Nat) (name : Bytes) : Bytes := if depth > 0 then entryOpen name else []

def entryCloseAt (depth : Nat) : Bytes := if depth > 0 then entryClose else []

def pushEvent (p : NarPieces) : WalkEvent → NarPieces
  | .enterDir name =>
    { p with
      buf := p.buf ++ (entryOpenAt p.depth name ++ (nodeOpen ++ directoryOpen))
      depth := p.depth + 1 }
  | .leaveDir =>
    { p with
      buf := p.buf ++ (nodeClose ++ entryCloseAt (p.depth - 1))
      depth := p.depth - 1 }
  | .symlink name target =>
    { p with
      buf := p.buf ++ (entryOpenAt p.depth name ++ (nodeOpen ++ (Frame.symlink target ++
        (nodeClose ++ entryCloseAt p.depth)))) }
  | .file name digest size executable =>
    { p with
      buf := p.buf ++ (entryOpenAt p.depth name ++ (nodeOpen ++ regularHeader executable size))
      pending := some (digest, size) }

def closeFile (size : UInt64) (p : NarPieces) : NarPieces :=
  { p with buf := p.buf ++ (contentsPadding size ++ (nodeClose ++ entryCloseAt p.depth)) }

def pull (error : Option WalkError) :
    List WalkEvent → NarPieces → Option (Except WalkError (NarPiece × NarPieces))
  | [], p =>
    match error with
    | some e => some (.error e)
    | none =>
      if p.buf = [] then none
      else some (.ok (.framing p.buf, { p with walk := ([], none), buf := [] }))
  | ev :: evs, p =>
    let p := p.pushEvent ev
    if p.pending.isSome ∨ p.buf.length ≥ framingFlushBytes then
      some (.ok (.framing p.buf, { p with walk := (evs, error), buf := [] }))
    else pull error evs p

def next (p : NarPieces) : Option (Except WalkError (NarPiece × NarPieces)) :=
  match p.pending with
  | some (digest, size) =>
    some (.ok (.contents digest size, closeFile size { p with pending := none }))
  | none => pull p.walk.2 p.walk.1 p

def bound (p : NarPieces) : Nat :=
  3 * p.walk.1.length + 2 * p.pending.toList.length + min 1 p.buf.length

theorem pull_bound_lt (h : pull error evs p = some (.ok (piece, p'))) :
    p'.bound < bound { p with walk := (evs, error) } := by
  induction evs generalizing p with
  | nil =>
    unfold pull at h
    cases error with
    | some e => cases h
    | none =>
      by_cases hb : p.buf = []
      · rw [if_pos hb] at h
        cases h
      · rw [if_neg hb] at h
        cases h
        have := length_pos_iff.mpr hb
        simp only [bound, length_nil]
        omega
  | cons ev evs ih =>
    unfold pull at h
    dsimp only at h
    split_ifs at h with hf
    · cases h
      have := (p.pushEvent ev).pending.length_toList_le
      simp only [bound, length_cons, length_nil]
      omega
    · have hpe : (p.pushEvent ev).pending = none := by
        simpa using fun hp => hf (.inl hp)
      refine (ih h).trans ?_
      simp only [bound, hpe, length_cons, Option.toList_none, length_nil]
      omega

theorem next_bound_lt {p p' : NarPieces} (h : p.next = some (.ok (piece, p'))) :
    p'.bound < p.bound := by
  unfold next at h
  split at h
  · rename_i digest size hp
    cases h
    simp only [bound, closeFile, hp, Option.toList_some, Option.toList_none,
      length_singleton, length_nil]
    omega
  · exact pull_bound_lt h

def items (p : NarPieces) : List NarPiece × Option WalkError :=
  match _h : p.next with
  | none => ([], none)
  | some (.error e) => ([], some e)
  | some (.ok (piece, p')) =>
    let r := items p'
    (piece :: r.1, r.2)
termination_by p.bound
decreasing_by exact next_bound_lt _h

end NarPieces

/-- `nar_pieces`, run to its end. -/
def narPieces (root : RootNode) (dirs : Map Digest Directory) (maxNodes : Nat) :
    List NarPiece × Option WalkError :=
  NarPieces.items { walk := walk root dirs maxNodes, buf := Frame.magic }

def NarPiece.bytes (contents : Digest → Bytes) : NarPiece → Bytes
  | framing bytes => bytes
  | .contents digest _ => contents digest

def decodeDag (k : Codec) (rootNode : Bytes) (bodies : List Bytes) :
    Option (RootNode × Map Digest Directory) := do
  let root ← k.decodeRootNode rootNode
  let dirs ← bodies.foldlM
    (fun dirs body => (k.decodeDirectory body).map fun dir =>
      dirs.insert (k.directoryDigest dir) dir)
    ∅
  return (root, dirs)

end RioBuild.Castore
