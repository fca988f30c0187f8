import Mathlib.Data.Set.Card
import RioBuild.Fuse.InoMap

namespace RioBuild.Fuse

open Lib Castore List

def rootNodeOf : RootNode → Option Node
  | .unset => none
  | .dirDigest d => (toDigest d).map .dir
  | .file f => (toDigest f.digest).map fun digest => .file digest f.size f.executable
  | .symlink s => some (.symlink s.target)

/-- The entries of a body; one whose digest has a wrong length stands for nothing. -/
def entriesOf (body : Directory) : List (Bytes × Option Node) :=
  body.directories.map (fun e => (e.name, (toDigest e.digest).map .dir)) ++
    (body.files.map (fun f =>
      (f.name, (toDigest f.digest).map fun digest => .file digest f.size f.executable)) ++
    body.symlinks.map (fun s => (s.name, some (.symlink s.target))))

structure Inputs where
  directoryDigest : Directory → Digest
  roots : List (Bytes × RootNode)
  directories : List Directory

namespace Inputs

variable (inp : Inputs)

def body (d : Digest) : Option Directory :=
  inp.directories.find? fun b => inp.directoryDigest b = d

def child : Node → Bytes → Option Node
  | .dir d, name => (inp.body d).bind fun b => ((entriesOf b).find? (·.1 = name)).bind Prod.snd
  | .file .., _ => none
  | .symlink .., _ => none

def root (name : Bytes) : Option Node :=
  (inp.roots.find? fun r => basename r.1 = name).bind fun r => rootNodeOf r.2

def descend : Node → List Bytes → Option Node
  | nd, [] => some nd
  | nd, name :: names => (inp.child nd name).bind fun nd => descend nd names

def nodeAt : List Bytes → Option Node
  | [] => none
  | name :: names => (inp.root name).bind fun nd => inp.descend nd names

def rootFiles : List FileEntry :=
  inp.roots.flatMap fun r => match r.2 with
    | .file f => [f]
    | .unset | .dirDigest _ | .symlink _ => []

def files : List FileEntry := inp.rootFiles ++ inp.directories.flatMap Directory.files

inductive Reach : Digest → Prop
  | root {r : Bytes × RootNode} {d : Digest} (mem : r ∈ inp.roots)
    (node : rootNodeOf r.2 = some (.dir d)) : Reach d
  | child {d c : Digest} {b : Directory} (parent : Reach d) (body : inp.body d = some b)
    {e : DirectoryEntry} (mem : e ∈ b.directories) (digest : toDigest e.digest = some c) : Reach c

structure WellFormed : Prop where
  set : ∀ r ∈ inp.roots, r.2 ≠ .unset
  injective : ∀ b ∈ inp.directories, ∀ b' ∈ inp.directories,
    inp.directoryDigest b = inp.directoryDigest b' → b = b'
  names : ∀ b ∈ inp.directories, ((entriesOf b).map Prod.fst).Nodup
  sizes : ∀ f ∈ inp.files, ∀ f' ∈ inp.files, f.digest = f'.digest → f.size = f'.size
  paths : {p | (inp.nodeAt p).isSome}.encard < 2 ^ 32

def badRoot : RootNode → Prop
  | .unset => False
  | .dirDigest d => d.length ≠ 32
  | .file f => f.digest.length ≠ 32
  | .symlink _ => False

def badBody (b : Directory) : Prop :=
  (∃ e ∈ b.directories, e.digest.length ≠ 32) ∨ ∃ f ∈ b.files, f.digest.length ≠ 32

def Bad : Prop :=
  (∃ r ∈ inp.roots, basename r.1 = []) ∨ ¬(inp.roots.map fun r => basename r.1).Nodup ∨
    (∃ r ∈ inp.roots, badRoot r.2) ∨ (∃ d b, inp.Reach d ∧ inp.body d = some b ∧ badBody b) ∨
    ∃ d, inp.Reach d ∧ inp.body d = none

def subdirs (p : List Bytes) : Set Bytes := {n | ∃ d, inp.nodeAt (p ++ [n]) = some (.dir d)}

end Inputs

namespace Inputs

variable {inp : Inputs} {p : List Bytes} {n : Bytes} {nd : Node} {d : Digest} {b : Directory}

theorem nodeAt_singleton : inp.nodeAt [n] = inp.root n := by
  exact Option.bind_fun_some _

theorem descend_concat (nd : Node) (names : List Bytes) (n : Bytes) :
    inp.descend nd (names ++ [n]) = (inp.descend nd names).bind fun nd => inp.child nd n := by
  induction names generalizing nd with
  | nil => exact Option.bind_fun_some _
  | cons m names ih =>
    simp only [descend, Option.bind_assoc]
    exact congrArg _ (funext fun nd => ih nd)

theorem nodeAt_concat (hp : p ≠ []) :
    inp.nodeAt (p ++ [n]) = (inp.nodeAt p).bind fun nd => inp.child nd n := by
  cases p with
  | nil => exact absurd rfl hp
  | cons m p =>
    simp only [cons_append, nodeAt, Option.bind_assoc]
    exact congrArg _ (funext fun nd => descend_concat nd p n)

theorem mem_directories (h : inp.body d = some b) : b ∈ inp.directories :=
  mem_of_find?_eq_some h

theorem mem_of_bind_find? (h : (List.find? (·.1 = n) es).bind Prod.snd = some nd) :
    (n, some nd) ∈ es := by
  obtain ⟨e, he, hnd⟩ := Option.bind_eq_some_iff.mp h
  have hn : e.1 = n := by simpa using find?_some he
  have heq : e = (n, some nd) := Prod.ext hn hnd
  exact heq ▸ mem_of_find?_eq_some he

theorem bind_find?_eq_some {es : List (Bytes × Option Node)} (h : (es.map Prod.fst).Nodup) :
    (es.find? (·.1 = n)).bind Prod.snd = some nd ↔ (n, some nd) ∈ es := by
  refine ⟨mem_of_bind_find?, fun hm => ?_⟩
  cases hf : es.find? (·.1 = n) with
  | none => exact absurd (find?_eq_none.mp hf _ hm) (by simp)
  | some e =>
    have hn : e.1 = n := by simpa using find?_some hf
    have heq : e = (n, some nd) := inj_on_of_nodup_map h (mem_of_find?_eq_some hf) hm hn
    rw [heq]
    rfl

theorem WellFormed.child_dir (h : inp.WellFormed) (hb : inp.body d = some b) :
    inp.child (.dir d) n = some nd ↔ (n, some nd) ∈ entriesOf b := by
  simp only [child, hb]
  exact bind_find?_eq_some (h.names b (mem_directories hb))

theorem root_eq_some (h : (inp.roots.map fun r => basename r.1).Nodup) :
    inp.root n = some nd ↔ ∃ r ∈ inp.roots, basename r.1 = n ∧ rootNodeOf r.2 = some nd := by
  have hn : ((inp.roots.map fun r => (basename r.1, rootNodeOf r.2)).map Prod.fst).Nodup := by
    rwa [map_map]
  have hr : inp.root n =
      ((inp.roots.map fun r => (basename r.1, rootNodeOf r.2)).find? (·.1 = n)).bind Prod.snd := by
    rw [find?_map, Option.bind_map]
    rfl
  rw [hr, bind_find?_eq_some hn]
  simp

theorem exists_entry_of_nodeAt (h : inp.nodeAt (p ++ [n]) = some nd) :
    (∃ r ∈ inp.roots, rootNodeOf r.2 = some nd) ∨
      ∃ d b, inp.nodeAt p = some (.dir d) ∧ inp.body d = some b ∧ (n, some nd) ∈ entriesOf b := by
  by_cases hp : p = []
  · subst hp
    rw [nil_append, nodeAt_singleton] at h
    obtain ⟨r, hr, hnd⟩ := Option.bind_eq_some_iff.mp h
    exact .inl ⟨r, mem_of_find?_eq_some hr, hnd⟩
  · rw [nodeAt_concat hp] at h
    obtain ⟨parent, hpa, hc⟩ := Option.bind_eq_some_iff.mp h
    cases parent with
    | file d' s' x' | symlink t => cases hc
    | dir d =>
      obtain ⟨b, hb, hf⟩ := Option.bind_eq_some_iff.mp hc
      exact .inr ⟨d, b, hpa, hb, mem_of_bind_find? hf⟩

theorem mem_entriesOf_dir : (n, some (.dir d)) ∈ entriesOf b ↔
    ∃ e ∈ b.directories, e.name = n ∧ toDigest e.digest = some d := by
  simp [entriesOf]

theorem mem_entriesOf_file : (n, some (.file d s x)) ∈ entriesOf b ↔
    ∃ f ∈ b.files, f.name = n ∧ toDigest f.digest = some d ∧ f.size = s ∧ f.executable = x := by
  simp [entriesOf, -Subtype.exists]

theorem badBody_iff : badBody b ↔ ∃ n, (n, none) ∈ entriesOf b := by
  simp [badBody, entriesOf, toDigest_eq_none, exists_or]

theorem rootNodeOf_eq_none (h : r ≠ .unset) : rootNodeOf r = none ↔ badRoot r := by
  cases r with
  | unset => exact absurd rfl h
  | dirDigest d | file f => simp [rootNodeOf, badRoot, toDigest_eq_none]
  | symlink s => simp [rootNodeOf, badRoot]

theorem exists_file (h : inp.nodeAt p = some (.file d s x)) :
    ∃ f ∈ inp.files, f.digest = d.1 ∧ f.size = s := by
  cases p using reverseRecOn with
  | nil => cases h
  | append_singleton p n _ =>
    rcases exists_entry_of_nodeAt h with ⟨⟨path, root⟩, hm, hn⟩ | ⟨d', b, -, hb, hm⟩
    · cases root with
      | unset => cases hn
      | dirDigest d' => simp [rootNodeOf] at hn
      | symlink s' => cases hn
      | file f =>
        simp only [rootNodeOf, Option.map_eq_some_iff] at hn
        obtain ⟨d', hd, rfl, rfl, rfl⟩ := hn
        refine ⟨f, mem_append_left _ ?_, toDigest_eq_some.mp hd, rfl⟩
        exact mem_flatMap.mpr ⟨_, hm, mem_singleton_self f⟩
    · obtain ⟨f, hf, -, hd, hs, -⟩ := mem_entriesOf_file.mp hm
      refine ⟨f, mem_append_right _ ?_, toDigest_eq_some.mp hd, hs⟩
      exact mem_flatMap.mpr ⟨b, mem_directories hb, hf⟩

theorem reach_of_nodeAt (h : inp.nodeAt p = some (.dir d)) : inp.Reach d := by
  induction p using reverseRecOn generalizing d with
  | nil => cases h
  | append_singleton p n ih =>
    rcases exists_entry_of_nodeAt h with ⟨r, hm, hn⟩ | ⟨d', b, hp, hb, hm⟩
    · exact .root hm hn
    · obtain ⟨e, he, -, hd⟩ := mem_entriesOf_dir.mp hm
      exact .child (ih hp) hb he hd

theorem WellFormed.exists_nodeAt_of_reach (h : inp.WellFormed)
    (hn : (inp.roots.map fun r => basename r.1).Nodup) (hr : inp.Reach d) :
    ∃ p, inp.nodeAt p = some (.dir d) := by
  induction hr with
  | root mem node =>
    rename_i r d
    refine ⟨[basename r.1], ?_⟩
    rw [nodeAt_singleton, root_eq_some hn]
    exact ⟨_, mem, rfl, node⟩
  | child parent body mem digest ih =>
    rename_i e
    obtain ⟨p, hp⟩ := ih
    have hne : p ≠ [] := by
      rintro rfl
      cases hp
    refine ⟨p ++ [e.name], ?_⟩
    rw [nodeAt_concat hne, hp, Option.bind_some, h.child_dir body]
    exact mem_entriesOf_dir.mpr ⟨e, mem, rfl, digest⟩

end Inputs

end RioBuild.Fuse
