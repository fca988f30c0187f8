import RioBuild.Castore.Build
import RioBuild.Nar.Tree

namespace RioBuild.Castore

open Lib Nar List

def Codec.merkle (k : Codec) : Entries FileRef → Directory × UInt64
  | .nil => ({}, 0)
  | .leaf name (.regular ref executable) rest =>
    let r := k.merkle rest
    ({ r.1 with files := ⟨name, ref.1.1, ref.2, executable⟩ :: r.1.files }, 1 + r.2)
  | .leaf name (.symlink target) rest =>
    let r := k.merkle rest
    ({ r.1 with symlinks := ⟨name, target⟩ :: r.1.symlinks }, 1 + r.2)
  | .dir name kids rest =>
    let d := k.merkle kids
    let r := k.merkle rest
    ({ r.1 with directories := ⟨name, (k.directoryDigest d.1).1, d.2⟩ :: r.1.directories },
      1 + d.2 + r.2)

def Codec.subBodies (k : Codec) : Entries FileRef → List Directory
  | .nil => []
  | .leaf _ _ rest => k.subBodies rest
  | .dir _ kids rest => (k.merkle kids).1 :: (k.subBodies kids ++ k.subBodies rest)

def Codec.bodies (k : Codec) : Nar.Node FileRef → List Directory
  | .leaf _ => []
  | .dir kids => (k.merkle kids).1 :: k.subBodies kids

def joinPath (path : Bytes) (address : List Bytes) : Bytes := address.foldl childPath path

theorem ne_nil_of_validName (h : ValidName name) : name ≠ [] := by
  have := h.1
  simp only [validComponent, Bool.and_eq_true, decide_eq_true_eq] at this
  exact this.1.1.1.1

theorem rsplitOnceByte_append (h : b ∉ s) : rsplitOnceByte b (p ++ b :: s) = some (p, s) := by
  have ht : ∀ x ∈ s.reverse, decide (x ≠ b) = true := by
    intro x hx
    rw [mem_reverse] at hx
    refine decide_eq_true ?_
    rintro rfl
    exact h hx
  unfold rsplitOnceByte
  rw [reverse_append, reverse_cons, append_assoc,
    takeWhile_append_of_pos ht, dropWhile_append_of_pos ht]
  simp

theorem rsplitOnceByte_eq_none (h : b ∉ s) : rsplitOnceByte b s = none := if_neg h

section

variable (h : ValidName name)
include h

theorem rsplitOnceByte_childPath :
    rsplitOnceByte 47 (childPath path name) = if path = [] then none else some (path, name) := by
  unfold childPath
  by_cases hp : path = []
  · rw [if_pos hp, if_pos hp, rsplitOnceByte_eq_none h.slash]
  · rw [if_neg hp, if_neg hp, rsplitOnceByte_append h.slash]

theorem parentPath_childPath : parentPath (childPath path name) = path := by
  unfold parentPath
  rw [rsplitOnceByte_childPath h]
  by_cases hp : path = []
  · rw [if_pos hp, hp]
  · rw [if_neg hp]

theorem basename_childPath : basename (childPath path name) = name := by
  unfold basename
  rw [rsplitOnceByte_childPath h]
  by_cases hp : path = []
  · rw [if_pos hp]
    exact if_pos hp
  · rw [if_neg hp]

theorem childPath_ne_nil : childPath path name ≠ [] := by
  unfold childPath
  split
  · exact ne_nil_of_validName h
  · simp

theorem childPath_ne_self : childPath path name ≠ path := by
  unfold childPath
  split
  · rename_i hn
    rw [hn]
    exact ne_nil_of_validName h
  · simp

end

theorem joinPath_concat :
    joinPath path (address ++ [name]) = childPath (joinPath path address) name := by
  simp [joinPath]

theorem joinPath_inj (ha : ∀ n ∈ a, ValidName n) (hb : ∀ n ∈ b, ValidName n)
    (h : joinPath [] a = joinPath [] b) : a = b := by
  induction a using reverseRecOn generalizing b with
  | nil =>
    cases b using reverseRecOn with
    | nil => rfl
    | append_singleton b m _ =>
      rw [joinPath_concat] at h
      exact absurd h.symm (childPath_ne_nil (hb m (by simp)))
  | append_singleton a n ih =>
    have hn := ha n (by simp)
    cases b using reverseRecOn with
    | nil =>
      rw [joinPath_concat] at h
      exact absurd h (childPath_ne_nil hn)
    | append_singleton b m _ =>
      have hm := hb m (by simp)
      rw [joinPath_concat, joinPath_concat] at h
      have hna := congrArg basename h
      have hp := congrArg parentPath h
      rw [basename_childPath hn, basename_childPath hm] at hna
      rw [parentPath_childPath hn, parentPath_childPath hm] at hp
      have hab := ih (fun x hx => ha x (mem_append_left _ hx))
        (fun x hx => hb x (mem_append_left _ hx)) hp
      rw [hab, hna]

def plain (e : NarLsEntry) : NarLsEntry := { e with narOffset := 0 }

def plainEntry (path : Bytes) : Option (Leaf FileRef) → NarLsEntry
  | none => dirEntry path
  | some l => plain (l.entry path 0)

theorem plain_entry : plain (l.entry path pos) = plainEntry path (some l) := by
  cases l <;> rfl

theorem path_plainEntry (o : Option (Leaf FileRef)) : (plainEntry path o).path = path := by
  cases o with
  | none => rfl
  | some l => cases l <;> rfl

theorem map_plain_listing (pos : Nat) : (listing path pos f).map plain =
    f.preorder.map fun x => plainEntry (joinPath path x.1) x.2 := by
  induction f generalizing path pos with
  | nil => rfl
  | leaf name l rest ih =>
    rw [listing, List.map_cons, plain_entry, ih]
    rfl
  | dir name kids rest ihk ih =>
    rw [listing, List.map_cons, map_append, ihk, ih, Forest.preorder, map_append,
      List.map_cons, map_map]
    rfl

theorem valid_of_mem_preorder {f : Entries FileRef} (h : f.All ValidName q) (hx : x ∈ f.preorder) :
    ∀ n ∈ x.1, ValidName n := by
  induction f generalizing x with
  | nil => cases hx
  | leaf name l rest ih =>
    rcases mem_cons.mp hx with rfl | hx
    · simpa using h.1
    · exact ih h.2.2 hx
  | dir name kids rest ihk ih =>
    rcases mem_append.mp hx with hx | hx
    · rcases mem_cons.mp hx with rfl | hx
      · simpa using h.1
      · obtain ⟨y, hy, rfl⟩ := mem_map.mp hx
        exact forall_mem_cons.mpr ⟨h.1, ihk h.2.1 hy⟩
    · exact ih h.2.2 hx

theorem foldlM_group (key : α → Option Nat) (xs : List α) (h : ∀ x ∈ xs, ∃ i, key x = some i)
    (m : Nat → List α) :
    xs.foldlM (fun m x => (key x).map fun i => Function.update m i (m i ++ [x])) m =
      some fun i => m i ++ xs.filter (key · = some i) := by
  induction xs generalizing m with
  | nil => simp
  | cons x xs ih =>
    obtain ⟨i, hi⟩ := h x mem_cons_self
    rw [foldlM_cons, hi, Option.map_some]
    refine (ih (fun y hy => h y (mem_cons_of_mem x hy)) _).trans ?_
    refine congrArg some (funext fun j => ?_)
    by_cases hij : j = i
    · rw [hij, Function.update_self, filter_cons_of_pos (by simpa using hi), append_assoc]
      rfl
    · rw [Function.update_of_ne hij, filter_cons_of_neg (by simpa [hi] using Ne.symm hij)]

theorem lookup_pathToIdx (h : (entries.map NarLsEntry.path).Nodup) :
    (pathToIdx entries).lookup path = some i ↔ ∃ e, (e, i) ∈ entries.zipIdx ∧ e.path = path := by
  have hk : (entries.zipIdx.map fun x => x.1.path).Nodup := by
    have hma : (entries.zipIdx.map fun x => x.1.path) = entries.map NarLsEntry.path := by
      rw [← zipIdx_map_fst 0 entries, map_map, zipIdx_map_fst]
      rfl
    rwa [hma]
  have hlk := Map.lookup_foldl_insert (m := ∅) (a := path)
    (fun x : NarLsEntry × Nat => x.1.path) (fun x => x.2) entries.zipIdx
  unfold pathToIdx
  rw [hlk]
  cases hl : (entries.zipIdx.filter (·.1.path = path)).getLast? with
  | none =>
    refine iff_of_false (by simp) ?_
    rintro ⟨e, hm, hp⟩
    exact Map.getLast?_filter_eq_none.mp hl _ hm hp
  | some x =>
    obtain ⟨hm, hp⟩ := Map.mem_of_getLast?_filter hl
    simp only [Option.map_some, Option.some_or, Option.some.injEq]
    constructor
    · rintro rfl
      exact ⟨x.1, hm, hp⟩
    · rintro ⟨e, hm', hp'⟩
      rw [inj_on_of_nodup_map hk hm hm' (hp.trans hp'.symm)]

theorem assemble_congr
    (h : ∀ c ∈ cs, st.dirDigests c.2 = st'.dirDigests c.2 ∧ st.dirSizes c.2 = st'.dirSizes c.2) :
    assemble st cs = assemble st' cs := by
  refine foldl_ext _ _ _ fun dir c hc => ?_
  obtain ⟨hd, hs⟩ := h c hc
  unfold addChild
  rw [hd, hs]

def Solved (k : Codec) (children : Nat → List (NarLsEntry × Nat)) (st : BuildState)
    (x : NarLsEntry × Nat) : Prop :=
  x.1.kind = .directory → st.dirDigests x.2 = k.directoryDigest (assemble st (children x.2)).1 ∧
      st.dirSizes x.2 = (assemble st (children x.2)).2

/-- The loop goes from the last entry to the first, so the children of a directory, which come
after it, are done when it is made. -/
theorem solved_foldr {xs : List (NarLsEntry × Nat)}
    (hso : xs.Pairwise fun x y => x.2 < y.2) (hch : ∀ x ∈ xs, ∀ c ∈ children x.2, x.2 < c.2) :
    (∀ x ∈ xs, Solved k children (xs.foldr (buildStep k children) {}) x) ∧
      ∀ d, d ∈ (xs.foldr (buildStep k children) {}).built ↔ ∃ x ∈ xs, x.1.kind = .directory ∧
        (assemble (xs.foldr (buildStep k children) {}) (children x.2)).1 = d := by
  induction xs with
  | nil => exact ⟨nofun, fun d => by simp⟩
  | cons x xs ih =>
    obtain ⟨hlt, hso⟩ := pairwise_cons.mp hso
    obtain ⟨ihSolved, ihBuilt⟩ := ih hso fun y hy => hch y (mem_cons_of_mem x hy)
    rw [foldr_cons]
    generalize xs.foldr (buildStep k children) {} = st at ihSolved ihBuilt
    by_cases hk : x.1.kind = .directory
    · have hs : buildStep k children x st =
          { dirDigests := Function.update st.dirDigests x.2
              (k.directoryDigest (assemble st (children x.2)).1)
            dirSizes := Function.update st.dirSizes x.2 (assemble st (children x.2)).2
            built := st.built ++ [(assemble st (children x.2)).1] } :=
        if_neg (not_not.mpr hk)
      -- Nothing from `x` on looks at what is set now.
      have hsa {y : NarLsEntry × Nat} (hy : x.2 ≤ y.2) (hcs : ∀ c ∈ children y.2, y.2 < c.2) :
          assemble (buildStep k children x st) (children y.2) = assemble st (children y.2) := by
        refine assemble_congr fun c hc => ?_
        have hne : c.2 ≠ x.2 := (hy.trans_lt (hcs c hc)).ne'
        rw [hs]
        exact ⟨Function.update_of_ne hne _ _, Function.update_of_ne hne _ _⟩
      have hse := hsa le_rfl (hch x mem_cons_self)
      have hl {y : NarLsEntry × Nat} hy :=
        hsa (hlt y hy).le (hch y (mem_cons_of_mem x hy))
      refine ⟨fun y hy hd => ?_, fun d => ?_⟩
      · rcases mem_cons.mp hy with rfl | hy
        · rw [hse, hs]
          exact ⟨Function.update_self _ _ _, Function.update_self _ _ _⟩
        · have hne : y.2 ≠ x.2 := (hlt y hy).ne'
          rw [hl hy, hs]
          dsimp only
          rw [Function.update_of_ne hne, Function.update_of_ne hne]
          exact ihSolved y hy hd
      · have hb : (buildStep k children x st).built =
            st.built ++ [(assemble st (children x.2)).1] := by rw [hs]
        rw [hb, mem_append, ihBuilt, mem_singleton]
        constructor
        · rintro (⟨y, hy, hd, rfl⟩ | rfl)
          · exact ⟨y, mem_cons_of_mem x hy, hd, by rw [hl hy]⟩
          · exact ⟨x, mem_cons_self, hk, by rw [hse]⟩
        · rintro ⟨y, hy, hd, rfl⟩
          rcases mem_cons.mp hy with rfl | hy
          · exact .inr (by rw [hse])
          · exact .inl ⟨y, hy, hd, by rw [hl hy]⟩
    · have hs : buildStep k children x st = st := if_pos hk
      rw [hs]
      refine ⟨fun y hy hd => ?_, fun d => ?_⟩
      · rcases mem_cons.mp hy with rfl | hy
        · exact absurd hd hk
        · exact ihSolved y hy hd
      · rw [ihBuilt]
        constructor
        · rintro ⟨y, hy, hd⟩
          exact ⟨y, mem_cons_of_mem x hy, hd⟩
        · rintro ⟨y, hy, hd⟩
          rcases mem_cons.mp hy with rfl | hy
          · exact absurd hd.1 hk
          · exact ⟨y, hy, hd⟩

end RioBuild.Castore
