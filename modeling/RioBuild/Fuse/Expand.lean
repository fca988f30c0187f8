import RioBuild.Fuse.Table

namespace RioBuild.Fuse

open Lib Castore List Expansion

def pendingOf (selfIno : Nat) (e : Bytes × Nat × Node) : Option Pending :=
  match e.2.2 with
  | .dir d => some ⟨e.2.1, d, selfIno⟩
  | .file .. | .symlink .. => none

def logOf (p : List Bytes) (found : List (Bytes × Nat × Node)) : List (List Bytes × Nat) :=
  found.map fun e => (p ++ [e.1], e.2.1)

theorem mem_logOf : (q, i) ∈ logOf p found ↔ ∃ e ∈ found, q = p ++ [e.1] ∧ i = e.2.1 := by
  simp [logOf, eq_comm]

theorem mem_paths_logOf : p ++ [n] ∈ (logOf p found).map Prod.fst ↔ n ∈ found.map Prod.fst := by
  simp [logOf]

/-- The children found so far in the directory at `p`; `log` and `base` are from before. -/
structure Expansion.Inv (spec : List Bytes → Option Node) (p : List Bytes) (selfIno : Nat)
    (base : List Pending) (log : List (List Bytes × Nat)) (found : List (Bytes × Nat × Node))
    (x : Expansion) : Prop where
  table : Table.Inv spec (log ++ logOf p found) x.table
  nodes : ∀ e ∈ found, spec (p ++ [e.1]) = some e.2.2
  entries : x.entries = found.map fun e => (e.1, e.2.1, e.2.2.kind)
  pending : x.pending = (found.filterMap (pendingOf selfIno)).reverse ++ base

structure Fits (spec : List Bytes → Option Node) (p : List Bytes)
    (log : List (List Bytes × Nat)) (found : List (Bytes × Nat × Node))
    (es : List (Bytes × Option Node)) : Prop where
  names : (found.map Prod.fst ++ es.map Prod.fst).Nodup
  nodes : ∀ n nd, (n, some nd) ∈ es → spec (p ++ [n]) = some nd
  fresh : ∀ n, p ++ [n] ∉ log.map Prod.fst

inductive Expansion.Outcome (spec : List Bytes → Option Node) (p : List Bytes) (selfIno : Nat)
    (base : List Pending) (log : List (List Bytes × Nat)) (found : List (Bytes × Nat × Node))
    (es : List (Bytes × Option Node)) : Except TreeError Expansion → Prop
  | bad {n : Bytes} {e : TreeError} (mem : (n, none) ∈ es) :
    Outcome spec p selfIno base log found es (.error e)
  | good {x : Expansion} (added : List (Bytes × Nat × Node))
    (eq : added.map (fun e => (e.1, some e.2.2)) = es)
    (inv : Inv spec p selfIno base log (found ++ added) x) :
    Outcome spec p selfIno base log found es (.ok x)

namespace Expansion

theorem Inv.concat (h : Inv spec p selfIno base log found x) {y : Expansion}
    (hs : spec (p ++ [name]) = some nd)
    (ht : Table.Inv spec (log ++ logOf p found ++ [(p ++ [name], i)]) y.table)
    (hes : y.entries = x.entries ++ [(name, i, nd.kind)])
    (hp : y.pending = (pendingOf selfIno (name, i, nd)).toList ++ x.pending) :
    Inv spec p selfIno base log (found ++ [(name, i, nd)]) y where
  table := by
    rwa [logOf, map_append, ← append_assoc]
  nodes := by
    intro e he
    rcases mem_append.mp he with he | he
    · exact h.nodes e he
    · rw [mem_singleton.mp he]
      exact hs
  entries := by
    rw [hes, h.entries, map_append]
    rfl
  pending := by
    rw [hp, h.pending, filterMap_append, reverse_append]
    cases nd <;> rfl

end Expansion

namespace Fits

theorem notMem (h : Fits spec p log found ((name, o) :: es)) :
    p ++ [name] ∉ (log ++ logOf p found).map Prod.fst := by
  rw [map_append, mem_append, mem_paths_logOf]
  rintro (hm | hm)
  · exact h.fresh name hm
  · exact (nodup_append.mp h.names).2.2 _ hm _ mem_cons_self rfl

theorem head (h : Fits spec p log found ((name, some nd) :: es)) : spec (p ++ [name]) = some nd :=
  h.nodes _ _ mem_cons_self

theorem left (h : Fits spec p log found (es ++ es')) : Fits spec p log found es where
  names := by
    refine h.names.sublist ?_
    rw [map_append, ← append_assoc]
    exact sublist_append_left _ _
  nodes n nd hm := h.nodes n nd (mem_append_left _ hm)
  fresh := h.fresh

theorem right (h : Fits spec p log found (es ++ es'))
    (ha : added.map (fun e => (e.1, some e.2.2)) = es) : Fits spec p log (found ++ added) es' where
  names := by
    have hn : added.map Prod.fst = es.map Prod.fst := by
      rw [← ha, map_map]
      rfl
    rw [map_append, hn, append_assoc, ← map_append]
    exact h.names
  nodes n nd hm := h.nodes n nd (mem_append_right _ hm)
  fresh := h.fresh

end Fits

namespace Expansion

variable {γ : Type}

theorem Outcome.nil (h : Inv spec p selfIno base log found x) :
    Outcome spec p selfIno base log found [] (.ok x) := by
  refine .good [] rfl ?_
  rwa [append_nil]

theorem Outcome.bind (h : Outcome spec p selfIno base log found es r)
    (hf : Fits spec p log found (es ++ es'))
    (hk : ∀ found x, Inv spec p selfIno base log found x →
      Fits spec p log found es' → Outcome spec p selfIno base log found es' (k x)) :
    Outcome spec p selfIno base log found (es ++ es') (r >>= k) := by
  cases h with
  | bad hm => exact .bad (mem_append_left _ hm)
  | good added heq hi =>
    rename_i y
    have hn := hk _ _ hi (hf.right heq)
    change Outcome spec p selfIno base log found (es ++ es') (k y)
    generalize k y = r at hn
    cases hn with
    | bad hm => exact .bad (mem_append_right _ hm)
    | good added' heq' hi' =>
      rw [append_assoc] at hi'
      refine .good _ ?_ hi'
      rw [map_append, heq, heq']

theorem Outcome.foldlM
    (hs : ∀ g found x, Inv spec p selfIno base log found x → Fits spec p log found [entry g] →
      Outcome spec p selfIno base log found [entry g] (step x g)) (gs : List γ)
    (h : Inv spec p selfIno base log found x) (hf : Fits spec p log found (gs.map entry)) :
    Outcome spec p selfIno base log found (gs.map entry) (gs.foldlM step x) := by
  induction gs generalizing found x with
  | nil => exact .nil h
  | cons g gs ih =>
    have hh : Fits spec p log found [entry g] := hf.left
    exact (hs g found x h hh).bind hf fun _ _ => ih

theorem addDirectory_outcome (context : Bytes) (e : DirectoryEntry)
    (h : Inv spec p selfIno base log found x)
    (hf : Fits spec p log found [(e.name, (toDigest e.digest).map .dir)]) :
    Outcome spec p selfIno base log found [(e.name, (toDigest e.digest).map .dir)]
      (addDirectory selfIno context x e) := by
  unfold addDirectory digest32
  cases hd : toDigest e.digest with
  | none => exact .bad (mem_singleton_self _)
  | some d =>
    rw [hd] at hf
    have ht := h.table.insertDir hf.notMem hf.head
    exact .good [(e.name, _, .dir d)] rfl (h.concat hf.head ht rfl rfl)

theorem addFile_outcome (hs : Consistent spec) (context : Bytes) (f : FileEntry)
    (h : Inv spec p selfIno base log found x)
    (hf : Fits spec p log found
      [(f.name, (toDigest f.digest).map fun d => .file d f.size f.executable)]) :
    Outcome spec p selfIno base log found
      [(f.name, (toDigest f.digest).map fun d => .file d f.size f.executable)]
      (addFile context x f) := by
  unfold addFile
  cases hd : toDigest f.digest with
  | none =>
    obtain ⟨e, he⟩ := x.table.insertFile_error hd context
    rw [he]
    exact .bad (mem_singleton_self _)
  | some d =>
    rw [hd] at hf
    obtain ⟨i, t, heq, ht⟩ :=
      h.table.insertFile hs hf.notMem hd hf.head context
    rw [heq]
    exact .good [(f.name, i, _)] rfl (h.concat hf.head ht rfl rfl)

theorem addSymlink_outcome (s : SymlinkEntry) (h : Inv spec p selfIno base log found x)
    (hf : Fits spec p log found [(s.name, some (.symlink s.target))]) :
    Outcome spec p selfIno base log found [(s.name, some (.symlink s.target))]
      (.ok (addSymlink x s)) := by
  have ht := h.table.insertSymlink hf.notMem hf.head
  exact .good [(s.name, _, .symlink s.target)] rfl (h.concat hf.head ht rfl rfl)

theorem addBody_outcome (hs : Consistent spec) (context : Bytes) (body : Directory)
    (h : Inv spec p selfIno base log found x) (hf : Fits spec p log found (entriesOf body)) :
    Outcome spec p selfIno base log found (entriesOf body) (addBody selfIno context body x) := by
  refine Outcome.bind ?_ hf fun found x h hf =>
    Outcome.bind ?_ hf fun found x h hf => ?_
  · exact .foldlM (fun e _ _ => addDirectory_outcome context e) _ h hf.left
  · exact .foldlM (fun f _ _ => addFile_outcome hs context f) _ h hf.left
  · have hp : (pure (body.symlinks.foldl addSymlink x) : Except TreeError Expansion) =
        body.symlinks.foldlM (fun x s => .ok (addSymlink x s)) x := by
      rw [← foldlM_pure]
      rfl
    rw [hp]
    exact .foldlM (fun s _ _ => addSymlink_outcome s) _ h hf

end Expansion

namespace Build

variable {b : Build} {rs : List (Bytes × RootNode)}

def rootEntry (r : Bytes × RootNode) : Bytes × Option Node := (basename r.1, rootNodeOf r.2)

structure Roots (spec : List Bytes → Option Node) (found : List (Bytes × Nat × Node))
    (b : Build) : Prop where
  expansion : Inv spec [] rootIno [] [] found
    ⟨b.table, b.pending, found.map fun e => (e.1, e.2.1, e.2.2.kind)⟩
  roots : ∀ n i, b.roots.lookup n = some i ↔ ∃ nd, (n, i, nd) ∈ found
  rootNlink : b.rootNlink = 2 + UInt32.ofNat (found.countP (·.2.2.isDir))
  children : b.children = ∅

inductive RootsOutcome (spec : List Bytes → Option Node) (found : List (Bytes × Nat × Node))
    (rs : List (Bytes × RootNode)) : Except TreeError Build → Prop
  | bad {r : Bytes × RootNode} {e : TreeError} (mem : r ∈ rs)
    (bad : basename r.1 = [] ∨ rootNodeOf r.2 = none) : RootsOutcome spec found rs (.error e)
  | good {b : Build} (added : List (Bytes × Nat × Node))
    (eq : added.map (fun e => (e.1, some e.2.2)) = rs.map rootEntry)
    (names : ∀ r ∈ rs, basename r.1 ≠ []) (inv : Roots spec (found ++ added) b) :
    RootsOutcome spec found rs (.ok b)

theorem Roots.empty : Roots spec [] {} where
  expansion := ⟨Table.Inv.empty, nofun, rfl, rfl⟩
  roots := by simp
  rootNlink := rfl
  children := rfl

theorem Roots.notMem_keys (h : Roots spec found b) (hn : n ∉ found.map Prod.fst) :
    n ∉ b.roots.keys := by
  rw [Finmap.mem_keys, ← Finmap.lookup_isSome, Option.not_isSome_iff_eq_none]
  cases hl : b.roots.lookup n with
  | none => rfl
  | some i =>
    obtain ⟨nd, hm⟩ := (h.roots n i).mp hl
    exact absurd (mem_map_of_mem hm) hn

theorem Roots.insertRoot (h : Roots spec found b) (hs : Consistent spec)
    (hf : Fits spec [] [] found [rootEntry r]) (hnd : rootNodeOf r.2 = some nd) :
    ∃ i b', b.insertRoot r.1 r.2 = .ok (i, b') ∧ b'.roots = b.roots ∧ b'.children = b.children ∧
      b'.rootNlink = b.rootNlink + (if nd.isDir then 1 else 0) ∧
      Inv spec [] rootIno [] [] (found ++ [(basename r.1, i, nd)])
        ⟨b'.table, b'.pending,
          (found ++ [(basename r.1, i, nd)]).map fun e => (e.1, e.2.1, e.2.2.kind)⟩ := by
  rw [rootEntry, hnd] at hf
  have hne := hf.notMem
  have hn := hf.head
  obtain ⟨path, root⟩ := r
  cases root with
  | unset => simp [rootNodeOf] at hnd
  | dirDigest d =>
    simp only [rootNodeOf, Option.map_eq_some_iff] at hnd
    obtain ⟨digest, hd, rfl⟩ := hnd
    have ht := h.expansion.table.insertDir hne hn
    simp only [Build.insertRoot, digest32, hd]
    refine ⟨_, _, rfl, rfl, rfl, rfl, h.expansion.concat hn ht ?_ rfl⟩
    rw [map_append]
    rfl
  | file f =>
    simp only [rootNodeOf, Option.map_eq_some_iff] at hnd
    obtain ⟨digest, hd, rfl⟩ := hnd
    obtain ⟨i, t, heq, ht⟩ := h.expansion.table.insertFile hs hne hd hn path
    simp only [Build.insertRoot, heq]
    refine ⟨_, _, rfl, rfl, rfl, ?_, h.expansion.concat hn ht ?_ rfl⟩
    · simp [Node.isDir]
    · rw [map_append]
      rfl
  | symlink s =>
    cases hnd
    have ht := h.expansion.table.insertSymlink hne hn
    refine ⟨_, _, rfl, rfl, rfl, ?_, h.expansion.concat hn ht ?_ rfl⟩
    · simp [Node.isDir]
    · rw [map_append]
      rfl

theorem insertRoot_error {r : Bytes × RootNode} (h : rootNodeOf r.2 = none) (b : Build) :
    ∃ e, b.insertRoot r.1 r.2 = .error e := by
  obtain ⟨path, root⟩ := r
  cases root with
  | unset => exact ⟨_, rfl⟩
  | dirDigest d =>
    simp only [rootNodeOf, Option.map_eq_none_iff] at h
    simp [insertRoot, digest32, h]
  | file f =>
    simp only [rootNodeOf, Option.map_eq_none_iff] at h
    obtain ⟨e, he⟩ := b.table.insertFile_error h path
    simp [insertRoot, he]
  | symlink s => cases h

theorem Roots.addRoot (h : Roots spec found b) (hs : Consistent spec)
    (hf : Fits spec [] [] found [rootEntry r]) : RootsOutcome spec found [r] (b.addRoot r) := by
  unfold Build.addRoot
  by_cases hna : basename r.1 = []
  · rw [if_pos hna]
    exact .bad (mem_singleton_self r) (.inl hna)
  rw [if_neg hna]
  cases hnd : rootNodeOf r.2 with
  | none =>
    obtain ⟨e, he⟩ := insertRoot_error hnd b
    rw [he]
    exact .bad (mem_singleton_self r) (.inr hnd)
  | some nd =>
    obtain ⟨i, b', heq, hr, hc, hnl, hex⟩ := h.insertRoot hs hf hnd
    have hne : basename r.1 ∉ found.map Prod.fst := by
      intro hm
      exact (nodup_append.mp hf.names).2.2 _ hm _ mem_cons_self rfl
    have hk : basename r.1 ∉ b'.roots.keys := hr ▸ h.notMem_keys hne
    rw [heq]
    dsimp only
    rw [if_neg hk]
    refine .good [(basename r.1, i, nd)] (by simp [rootEntry, hnd]) (by simpa using hna)
      ⟨hex, ?_, ?_, hc.trans h.children⟩
    · intro n j
      rw [hr]
      simp only [mem_append, exists_or]
      rw [← h.roots]
      by_cases hn : n = basename r.1
      · subst hn
        have hno : b.roots.lookup (basename r.1) = none := by
          rw [hr] at hk
          exact Finmap.lookup_eq_none.mpr hk
        simp [hno, eq_comm]
      · simp [hn]
    · rw [hnl, h.rootNlink, countP_append, countP_singleton]
      cases nd.isDir <;> simp [add_assoc]

theorem Roots.foldlM (hsp : Consistent spec) (h : Roots spec found b)
    (hf : Fits spec [] [] found (rs.map rootEntry)) :
    RootsOutcome spec found rs (rs.foldlM Build.addRoot b) := by
  induction rs generalizing found b with
  | nil => exact .good [] rfl nofun (by rwa [append_nil])
  | cons r rs ih =>
    have hh : Fits spec [] [] found [rootEntry r] := hf.left
    have hs := h.addRoot hsp hh
    rw [foldlM_cons]
    generalize b.addRoot r = res at hs
    cases hs with
    | bad hm hb => exact .bad (mem_cons.mpr (.inl (mem_singleton.mp hm))) hb
    | good added heq hn hi =>
      rename_i b'
      have ht := hf.right heq
      have hr := ih hi ht
      change RootsOutcome spec found (r :: rs) (rs.foldlM Build.addRoot b')
      generalize rs.foldlM Build.addRoot b' = res at hr
      cases hr with
      | bad hm hb => exact .bad (mem_cons_of_mem r hm) hb
      | good added' heq' hn' hi' =>
        rw [append_assoc] at hi'
        refine .good _ ?_ ?_ hi'
        · rw [map_append, heq, heq']
          rfl
        · exact forall_mem_cons.mpr ⟨hn r (mem_singleton_self r), hn'⟩

theorem insertRoot_roots (h : b.insertRoot storePath node = .ok (i, b')) : b'.roots = b.roots := by
  cases node with
  | unset => cases h
  | dirDigest d | file f =>
    simp only [insertRoot] at h
    split at h
    · cases h
    · cases h
      rfl
  | symlink s =>
    cases h
    rfl

theorem nodup_of_foldlM_addRoot (h : rs.foldlM addRoot b = .ok b') :
    (rs.map fun r => basename r.1).Nodup ∧ ∀ r ∈ rs, basename r.1 ∉ b.roots.keys := by
  induction rs generalizing b with
  | nil => exact ⟨nodup_nil, nofun⟩
  | cons r rs ih =>
    rw [foldlM_cons] at h
    cases hs : b.addRoot r with
    | error e =>
      rw [hs] at h
      cases h
    | ok b1 =>
      rw [hs] at h
      obtain ⟨hnd, hk⟩ := ih h
      unfold addRoot at hs
      split at hs
      · cases hs
      split at hs
      · cases hs
      rename_i i b2 hi
      split at hs
      · cases hs
      rename_i hn
      cases hs
      rw [insertRoot_roots hi] at hn hk
      simp only [Finmap.mem_keys, Finmap.mem_insert, not_or] at hk hn ⊢
      refine ⟨?_, forall_mem_cons.mpr ⟨hn, fun r' hr' => (hk r' hr').2⟩⟩
      rw [map_cons, nodup_cons]
      refine ⟨?_, hnd⟩
      intro hm
      obtain ⟨r', hr', heq⟩ := mem_map.mp hm
      exact (hk r' hr').1 heq

end Build

end RioBuild.Fuse
