import RioBuild.Castore.Merkle
import RioBuild.Castore.WalkTree

namespace RioBuild.Chunked

open Lib Castore Nar Nar.Frame List

/-- The loop's state; `counter` is the length of the archive so far. -/
structure EntryState where
  counter : Nat
  components : List Bytes := []
  depth : Nat := 0
  out : List NarLsEntry := []
  deriving DecidableEq, Repr

namespace EntryState

def join (components : List Bytes) (name : Bytes) (depth : Nat) : Bytes :=
  if depth = 0 then [] else components.flatMap (· ++ [47]) ++ name

def openLen (depth : Nat) (name : Bytes) : Nat := if depth > 0 then (entryOpen name).length else 0

def closeLen (depth : Nat) : Nat := if depth > 0 then entryClose.length else 0

def step (s : EntryState) : WalkEvent → EntryState
  | .enterDir name =>
    { counter := s.counter + (openLen s.depth name + (nodeOpen.length + directoryOpen.length))
      components := if s.depth > 0 then s.components ++ [name] else s.components
      depth := s.depth + 1
      out := s.out ++ [{ path := join s.components name s.depth, kind := .directory }] }
  | .leaveDir =>
    { counter := s.counter + (nodeClose.length + closeLen (s.depth - 1))
      components := if s.depth - 1 > 0 then s.components.dropLast else s.components
      depth := s.depth - 1
      out := s.out }
  | .file name digest size executable =>
    let narOffset := s.counter +
      (openLen s.depth name + (nodeOpen.length + (regularHeader executable size).length))
    { s with
      counter := narOffset + size.toNat +
        ((contentsPadding size).length + (nodeClose.length + closeLen s.depth))
      out := s.out ++
        [{ path := join s.components name s.depth, kind := .regular, size, executable, narOffset
           fileDigest := digest }] }
  | .symlink name target =>
    { s with
      counter := s.counter + (openLen s.depth name + (nodeOpen.length +
        ((Frame.symlink target).length + (nodeClose.length + closeLen s.depth))))
      out := s.out ++ [{ path := join s.components name s.depth, kind := .symlink, target }] }

end EntryState

def treeToEntries (root : RootNode) (dirs : Map Digest Directory) (maxNodes : Nat) :
    Except WalkError (List NarLsEntry) :=
  let events := walk root dirs maxNodes
  match events.2 with
  | some e => .error e
  | none => .ok (events.1.foldl EntryState.step { counter := magic.length }).out

variable {components : List Bytes} {name : Bytes}

section

variable (h : ∀ n ∈ components, ValidName n)
include h

theorem joinPath_ne_nil (hne : components ≠ []) : joinPath [] components ≠ [] := by
  obtain ⟨cs, c, rfl⟩ := (eq_nil_or_concat' components).resolve_left hne
  rw [joinPath_concat]
  exact childPath_ne_nil (h c (by simp))

theorem flatMap_components (hne : components ≠ []) :
    components.flatMap (· ++ [47]) = joinPath [] components ++ [47] := by
  induction components using reverseRecOn with
  | nil => exact absurd rfl hne
  | append_singleton cs c ih =>
    have hc : ∀ n ∈ cs, ValidName n := fun n hn => h n (by simp [hn])
    rw [flatMap_append, joinPath_concat, childPath]
    by_cases hni : cs = []
    · simp [hni, joinPath]
    · rw [if_neg (joinPath_ne_nil hc hni), ih hc hni]
      simp

theorem join_eq_childPath (depth : Nat) :
    EntryState.join components name (depth + 1) = childPath (joinPath [] components) name := by
  rw [EntryState.join, childPath]
  by_cases hn : components = []
  · simp [hn, joinPath]
  · rw [if_neg (joinPath_ne_nil h hn), flatMap_components h hn]
    simp

end

namespace EntryState

variable {counter depth : Nat} {out : List NarLsEntry}

theorem step_leaf (h : ∀ n ∈ components, ValidName n) :
    step ⟨counter, components, depth + 1, out⟩ (leafEvent name l) =
      ⟨counter + (entryOpen name).length + l.len + entryClose.length, components, depth + 1,
        out ++ [l.entry (childPath (joinPath [] components) name)
          (counter + (entryOpen name).length)]⟩ := by
  cases l with
  | regular ref executable | symlink target =>
    simp [leafEvent, step, openLen, closeLen, Leaf.len, Leaf.entry, join_eq_childPath h, add_assoc]

theorem step_enterDir (h : ∀ n ∈ components, ValidName n) :
    step ⟨counter, components, depth + 1, out⟩ (.enterDir name) =
      ⟨counter + (entryOpen name).length + (nodeOpen.length + directoryOpen.length),
        components ++ [name], depth + 1 + 1,
        out ++ [dirEntry (childPath (joinPath [] components) name)]⟩ := by
  simp [step, openLen, dirEntry, join_eq_childPath h, add_assoc]

theorem step_leaveDir : step ⟨counter, components ++ [name], depth + 1 + 1, out⟩ .leaveDir =
    ⟨counter + (nodeClose.length + entryClose.length), components, depth + 1, out⟩ := by
  simp [step, closeLen]

theorem foldl_entryEvents (hf : f.All ValidName q) (h : ∀ n ∈ components, ValidName n) :
    (entryEvents f).foldl step ⟨counter, components, depth + 1, out⟩ =
      ⟨counter + entriesLen f, components, depth + 1,
        out ++ listing (joinPath [] components) counter f⟩ := by
  induction f generalizing counter components depth out with
  | nil => simp [entryEvents, entriesLen, listing]
  | leaf name l rest ih =>
    rw [entryEvents, foldl_cons, step_leaf h, ih hf.2.2 h, listing, entriesLen]
    simp [add_assoc]
  | dir name kids rest ihk ih =>
    have hna : ∀ n ∈ components ++ [name], ValidName n := by
      intro n hn
      rcases mem_append.mp hn with hn | hn
      · exact h n hn
      · rw [mem_singleton.mp hn]
        exact hf.1
    rw [entryEvents, foldl_cons, step_enterDir h, foldl_append, ihk hf.2.1 hna,
      foldl_cons, step_leaveDir, ih hf.2.2 h, listing, entriesLen, joinPath_concat]
    simp [add_assoc]

theorem foldl_nodeEvents (ht : t.Fits d) :
    ((nodeEvents t).foldl step { counter := magic.length }).out = index t := by
  cases t with
  | leaf l =>
    cases l with
    | regular ref executable =>
      simp [nodeEvents, leafEvent, step, join, openLen, index, Node.listing, Leaf.entry, add_assoc]
    | symlink target =>
      simp [nodeEvents, leafEvent, step, join, index, Node.listing, Leaf.entry]
  | dir kids =>
    have he : step { counter := magic.length } (.enterDir []) =
        ⟨magic.length + (nodeOpen.length + directoryOpen.length), [], 0 + 1, [dirEntry []]⟩ := by
      simp [step, openLen, join, dirEntry]
    rw [nodeEvents, foldl_cons, he, foldl_append, foldl_entryEvents ht.1 (by simp)]
    rfl

end EntryState

theorem treeToEntries_eq (h : RootUnfolds dirs root t) (hw : Walkable maxNodes t)
    (ht : t.Fits d) : treeToEntries root dirs maxNodes = .ok (index t) := by
  unfold treeToEntries
  rw [walk_rootUnfolds h hw]
  exact congrArg Except.ok (EntryState.foldl_nodeEvents ht)

end RioBuild.Chunked
