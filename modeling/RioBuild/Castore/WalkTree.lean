import RioBuild.Castore.Walk
import RioBuild.Nar.Tree

namespace RioBuild.Castore

open Lib Nar List TreeWalk

variable {dirs : Map Digest Directory} {maxNodes : Nat}

inductive Unfolds (dirs : Map Digest Directory) : List Child → Entries FileRef → Prop
  | nil : Unfolds dirs [] .nil
  | dir {name : Bytes} {digest : Digest} {size : UInt64} {d : Directory} {rest : List Child}
    {kids f : Entries FileRef} (found : dirs.lookup digest = some d)
    (below : Unfolds dirs (sortedChildren d) kids) (after : Unfolds dirs rest f) :
    Unfolds dirs (.dir ⟨name, digest.1, size⟩ :: rest) (.dir name kids f)
  | file {name : Bytes} {digest : Digest} {size : UInt64} {executable : Bool}
    {rest : List Child} {f : Entries FileRef} (after : Unfolds dirs rest f) :
    Unfolds dirs (.file ⟨name, digest.1, size, executable⟩ :: rest)
      (.leaf name (.regular (digest, size) executable) f)
  | symlink {name target : Bytes} {rest : List Child} {f : Entries FileRef}
    (after : Unfolds dirs rest f) :
    Unfolds dirs (.symlink ⟨name, target⟩ :: rest) (.leaf name (.symlink target) f)

inductive RootUnfolds (dirs : Map Digest Directory) : RootNode → Nar.Node FileRef → Prop
  | dir {digest : Digest} {d : Directory} {kids : Entries FileRef}
    (found : dirs.lookup digest = some d) (below : Unfolds dirs (sortedChildren d) kids) :
    RootUnfolds dirs (.dirDigest digest.1) (.dir kids)
  | file {name : Bytes} {digest : Digest} {size : UInt64} {executable : Bool} :
    RootUnfolds dirs (.file ⟨name, digest.1, size, executable⟩)
      (.leaf (.regular (digest, size) executable))
  | symlink {name target : Bytes} :
    RootUnfolds dirs (.symlink ⟨name, target⟩) (.leaf (.symlink target))

def leafEvent (name : Bytes) : Leaf FileRef → WalkEvent
  | .regular ref executable => .file name ref.1 ref.2 executable
  | .symlink target => .symlink name target

def entryEvents : Entries FileRef → List WalkEvent
  | .nil => []
  | .leaf name l rest => leafEvent name l :: entryEvents rest
  | .dir name kids rest => .enterDir name :: (entryEvents kids ++ .leaveDir :: entryEvents rest)

def nodeEvents : Nar.Node FileRef → List WalkEvent
  | .leaf l => [leafEvent [] l]
  | .dir kids => .enterDir [] :: (entryEvents kids ++ [.leaveDir])

def leafTargetLen : Leaf FileRef → Nat
  | .regular _ _ => 0
  | .symlink target => target.length

/-- The bytes of all paths and targets; `l` are spent on each path before the name. -/
def pathBytes (l : Nat) : Entries FileRef → Nat
  | .nil => 0
  | .leaf name a rest => l + name.length + leafTargetLen a + pathBytes l rest
  | .dir name kids rest => l + name.length + pathBytes (l + name.length + 1) kids + pathBytes l rest

def Walkable (maxNodes : Nat) : Nar.Node FileRef → Prop
  | .leaf a => 1 ≤ maxNodes ∧ leafTargetLen a ≤ maxNarIndexBytes
  | .dir kids => kids.Within maxNarDepth ∧ 1 + kids.count ≤ maxNodes ∧
      pathBytes 0 kids ≤ maxNarIndexBytes

theorem Walkable.mono (h : Walkable m t) (hm : m ≤ n) : Walkable n t := by
  cases t with
  | leaf l => exact ⟨h.1.trans hm, h.2⟩
  | dir kids => exact ⟨h.1, h.2.1.trans hm, h.2.2⟩

namespace TreeWalk

variable {cs : List Child} {f : Entries FileRef} {stack : List WalkFrame} {n b l : Nat}

theorem Step.items_eq (h : Step dirs maxNodes w ev w') : w.items dirs maxNodes =
    (ev :: (w'.items dirs maxNodes).1, (w'.items dirs maxNodes).2) := by
  rw [items]
  split
  · rename_i hs
    rw [step_eq_ok.mpr h] at hs
    cases hs
  · rename_i hs
    rw [step_eq_ok.mpr h] at hs
    cases hs
  · rename_i hs
    rw [step_eq_ok.mpr h] at hs
    cases hs
    rfl

theorem items_done : items dirs maxNodes ⟨[], none, n, b⟩ = ([], none) := by
  rw [items]
  rfl

theorem exists_step (h : (w.items dirs maxNodes).2 = none)
    (hw : w.pendingRoot ≠ none ∨ w.stack ≠ []) : ∃ ev w', Step dirs maxNodes w ev w' := by
  rw [items] at h
  split at h
  · rename_i hs
    unfold step at hs
    split at hs
    · cases hs
    · rename_i hr
      split at hs
      · rename_i hsk
        exact absurd hw (by simp [hr, hsk])
      all_goals cases hs
  · cases h
  · rename_i ev w' hs
    exact ⟨ev, w', step_eq_ok.mp hs⟩

theorem items_unfolds (h : Unfolds dirs cs f) (hde : f.Within (maxNarDepth - stack.length))
    (hn : n + f.count ≤ maxNodes) (hb : b + pathBytes l f ≤ maxNarIndexBytes) :
    items dirs maxNodes ⟨⟨cs, l⟩ :: stack, none, n, b⟩ =
      (entryEvents f ++
        .leaveDir :: (items dirs maxNodes ⟨stack, none, n + f.count, b + pathBytes l f⟩).1,
        (items dirs maxNodes ⟨stack, none, n + f.count, b + pathBytes l f⟩).2) := by
  induction h generalizing stack n b l with
  | nil => exact Step.leave.items_eq
  | dir found _ _ ihk ih =>
    obtain ⟨hd, hk, hf⟩ := hde
    simp only [pathBytes, Forest.count] at hn hb
    rw [(Step.dir (by omega) (by omega) (by omega) found).items_eq,
      ihk (by rwa [length_cons, ← Nat.sub_sub]) (by omega) (by omega)]
    simp only [entryEvents, Forest.count, pathBytes]
    grind
  | file _ ih =>
    obtain ⟨hd, hf⟩ := hde
    simp only [pathBytes, Forest.count] at hn hb
    rw [(Step.file (by omega) (by omega) (by omega)).items_eq]
    simp only [entryEvents, leafEvent, Forest.count, pathBytes, leafTargetLen]
    grind
  | symlink _ ih =>
    obtain ⟨hd, hf⟩ := hde
    simp only [pathBytes, leafTargetLen, Forest.count] at hn hb
    rw [(Step.symlink (by omega) (by omega) (by omega)).items_eq]
    simp only [entryEvents, leafEvent, Forest.count, pathBytes, leafTargetLen]
    grind

theorem exists_unfolds (h : (items dirs maxNodes ⟨⟨cs, l⟩ :: stack, none, n, b⟩).2 = none)
    (hn : n ≤ maxNodes) (hb : b ≤ maxNarIndexBytes) :
    ∃ f, Unfolds dirs cs f ∧ f.Within (maxNarDepth - stack.length) ∧
      n + f.count ≤ maxNodes ∧ b + pathBytes l f ≤ maxNarIndexBytes := by
  generalize hm : bound maxNodes ⟨⟨cs, l⟩ :: stack, none, n, b⟩ = m
  induction m using Nat.strong_induction_on generalizing cs l stack n b with
  | _ m ih =>
    subst hm
    obtain ⟨ev, w', hs⟩ := exists_step h (.inr (cons_ne_nil _ _))
    have hr := congrArg Prod.snd hs.items_eq
    have hlt := hs.bound_lt
    rw [h] at hr
    cases hs with
    | leave => exact ⟨.nil, .nil, trivial, hn, hb⟩
    | dir hd hns hby hfd =>
      obtain ⟨kids, hkd, hk, hkn, hkb⟩ := ih _ hlt hr.symm hns hby rfl
      rw [items_unfolds hkd hk hkn hkb] at hr
      -- the rest of the directory is walked with more nodes spent
      obtain ⟨f, hf, hfde, hfn, hfb⟩ := ih _ (by
        simp only [bound, length_cons]
        omega) hr.symm hkn hkb rfl
      refine ⟨_, .dir hfd hkd hf, ⟨by omega, ?_, hfde⟩, ?_, ?_⟩
      · rwa [length_cons, ← Nat.sub_sub] at hk
      · simp only [Forest.count]
        omega
      · simp only [pathBytes]
        omega
    | file hd hns hby =>
      obtain ⟨f, hf, hfde, hfn, hfb⟩ := ih _ hlt hr.symm hns hby rfl
      refine ⟨_, .file hf, ⟨by omega, hfde⟩, ?_, ?_⟩
      · simp only [Forest.count]
        omega
      · simp only [pathBytes, leafTargetLen]
        omega
    | symlink hd hns hby =>
      obtain ⟨f, hf, hfde, hfn, hfb⟩ := ih _ hlt hr.symm hns hby rfl
      refine ⟨_, .symlink hf, ⟨by omega, hfde⟩, ?_, ?_⟩
      · simp only [Forest.count]
        omega
      · simp only [pathBytes, leafTargetLen]
        omega

end TreeWalk

theorem walk_rootUnfolds (h : RootUnfolds dirs root t) (ht : Walkable maxNodes t) :
    walk root dirs maxNodes = (nodeEvents t, none) := by
  unfold walk
  cases h with
  | dir found below =>
    obtain ⟨hd, hn, hb⟩ := ht
    have hs : Step dirs maxNodes ⟨[], some (.dirDigest _), 0, 0⟩ _ _ :=
      .rootDir (by omega) found
    rw [hs.items_eq, items_unfolds below, items_done]
    · rfl
    · exact hd
    all_goals omega
  | file =>
    rw [(Step.rootFile (by simpa using ht.1)).items_eq, items_done]
    rfl
  | symlink =>
    rw [(Step.rootSymlink (by simpa using ht.1)
      (by simpa [leafTargetLen] using ht.2)).items_eq, items_done]
    rfl

theorem exists_rootUnfolds (h : (walk root dirs maxNodes).2 = none) :
    ∃ t, RootUnfolds dirs root t ∧ Walkable maxNodes t := by
  obtain ⟨ev, w', hs⟩ := exists_step h (.inl (by simp))
  have hr := congrArg Prod.snd hs.items_eq
  rw [← walk, h] at hr
  cases hs with
  | rootDir hn found =>
    obtain ⟨kids, hk, hd, hkn, hkb⟩ :=
      exists_unfolds hr.symm hn (Nat.zero_le _)
    exact ⟨_, .dir found hk, hd, by omega, by omega⟩
  | rootFile hn => exact ⟨_, .file, by simpa using hn, Nat.zero_le _⟩
  | rootSymlink hn hb => exact ⟨_, .symlink, by simpa using hn, by simpa [leafTargetLen] using hb⟩

end RioBuild.Castore
