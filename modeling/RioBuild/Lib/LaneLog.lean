import Mathlib.Data.List.FinRange

namespace RioBuild.Lib.LaneLog

open List

/-! Append-only logs whose entries belong to lanes.  An entry may cut its lane, and
what came before the last cut of a lane is dead.  Retention deletes dead entries. -/

variable {ρ κ : Type*} [DecidableEq κ] (lane : ρ → κ) (cut : ρ → Bool)

def hasCut (k : κ) (l : List ρ) : Bool := l.any (fun r => lane r = k && cut r)

def select (l : List ρ) (keep : Fin l.length → Bool) : List ρ :=
  ((List.finRange l.length).filter keep).map l.get

/-- The live entries: those with no later cut of their own lane. -/
def view : List ρ → List ρ
  | [] => []
  | r :: l => if hasCut lane cut (lane r) l then view l else r :: view l

inductive Sweep : List ρ → List ρ → Prop
  | nil : Sweep [] []
  | keep {r l l'} : Sweep l l' → Sweep (r :: l) (r :: l')
  | drop {r l l'} : cut r = false → hasCut lane cut (lane r) l = true → Sweep l l' →
      Sweep (r :: l) l'

inductive SweepRun : List ρ → List ρ → Prop
  | start (l) : SweepRun l l
  | append {l l'} (r) : SweepRun l l' → SweepRun (l ++ [r]) (l' ++ [r])
  | sweep {l l' l''} : SweepRun l l' → Sweep lane cut l' l'' → SweepRun l l''

section

variable {lane cut}

@[simp] theorem hasCut_cons :
    hasCut lane cut k (r :: l) = ((lane r = k && cut r) || hasCut lane cut k l) := rfl

@[simp] theorem hasCut_append :
    hasCut lane cut k (l ++ m) = (hasCut lane cut k l || hasCut lane cut k m) := by
  simp [hasCut]

theorem select_cons : select (r :: l) keep =
    if keep 0 then r :: select l (fun i => keep i.succ) else select l (fun i => keep i.succ) := by
  have hm : (((finRange l.length).map Fin.succ).filter keep).map (r :: l).get =
      select l (fun i => keep i.succ) := by
    rw [filter_map, map_map]
    rfl
  rw [select]
  simp only [length_cons, finRange_succ, filter_cons]
  split
  · rw [map_cons, hm]
    rfl
  · exact hm

theorem view_eq_select : view lane cut l =
    select l (fun i => !hasCut lane cut (lane (l.get i)) (l.drop (i.val + 1))) := by
  induction l with
  | nil => rfl
  | cons r l ih =>
    rw [select_cons, view, ih]
    cases h : hasCut lane cut (lane r) l <;> simp [h]

theorem sweep_select (deleted : Fin l.length → Bool)
    (h : ∀ i, deleted i = true → cut (l.get i) = false ∧
      hasCut lane cut (lane (l.get i)) (l.drop (i.val + 1)) = true) :
    Sweep lane cut l (select l (fun i => !deleted i)) := by
  induction l with
  | nil => exact .nil
  | cons r l ih =>
    have ih := ih (fun i => deleted i.succ) fun i hi => h i.succ hi
    rw [select_cons]
    cases hd : deleted 0 with
    | true =>
      obtain ⟨hc, hde⟩ := h 0 hd
      exact .drop hc hde ih
    | false => exact .keep ih

theorem hasCut_drop_iff (l : List ρ) (i : Fin l.length) :
    hasCut lane cut k (l.drop (i.val + 1)) = true ↔
      ∃ j : Fin l.length, i < j ∧ lane (l.get j) = k ∧ cut (l.get j) = true := by
  simp only [hasCut, any_eq_true, mem_drop_iff_getElem, Bool.and_eq_true, decide_eq_true_eq]
  constructor
  · rintro ⟨r, ⟨n, hn, rfl⟩, hr⟩
    exact ⟨⟨i.val + 1 + n, by omega⟩, Fin.lt_def.mpr (by simp only; omega), hr⟩
  · rintro ⟨j, hi, hj⟩
    refine ⟨l.get j, ⟨j.val - (i.val + 1), ?_, ?_⟩, hj⟩
    · omega
    · simp [Nat.add_sub_cancel' (Nat.succ_le_of_lt hi)]

theorem view_append : view lane cut (l ++ m) =
    (view lane cut l).filter (fun r => !hasCut lane cut (lane r) m) ++ view lane cut m := by
  induction l with
  | nil => rfl
  | cons r l ih =>
    simp only [cons_append, view, hasCut_append]
    cases hl : hasCut lane cut (lane r) l with
    | true => simpa using ih
    | false =>
      cases hm : hasCut lane cut (lane r) m with
      | true | false => simpa [hm] using ih

theorem Sweep.hasCut_eq (h : Sweep lane cut l l') : hasCut lane cut k l' = hasCut lane cut k l := by
  induction h with
  | nil => rfl
  | keep _ ih => rw [hasCut_cons, hasCut_cons, ih]
  | drop hr _ _ ih => simp [hr, ih]

theorem Sweep.view_eq (h : Sweep lane cut l l') : view lane cut l' = view lane cut l := by
  induction h with
  | nil => rfl
  | keep h ih => rw [view, view, h.hasCut_eq, ih]
  | drop _ hd _ ih => rw [view, if_pos hd, ih]

theorem SweepRun.view_eq (h : SweepRun lane cut l l') : view lane cut l' = view lane cut l := by
  induction h with
  | start l => rfl
  | append r _ ih => rw [view_append, view_append, ih]
  | sweep _ hs ih => rw [hs.view_eq, ih]

theorem view_filter_lane (k : κ) (l : List ρ) : (view lane cut l).filter (fun r => lane r = k) =
    view lane cut (l.filter (fun r => lane r = k)) := by
  have hc : ∀ m : List ρ,
      hasCut lane cut k (m.filter (fun r => lane r = k)) = hasCut lane cut k m := by
    intro m
    simp only [hasCut, any_filter]
    congr 1
    funext r
    by_cases h : lane r = k <;> simp
  induction l with
  | nil => rfl
  | cons r l ih =>
    by_cases h : lane r = k
    · subst h
      simp only [view, filter_cons, decide_true, if_true, hc]
      split
      · exact ih
      · simp [ih]
    · simp only [view, filter_cons, h]
      split
      · exact ih
      · simpa [h] using ih

theorem view_eq_self (h : ∀ r ∈ l, cut r = false) : view lane cut l = l := by
  induction l with
  | nil => rfl
  | cons r l ih =>
    have hl : ∀ x ∈ l, cut x = false := fun x hx => h x (by simp [hx])
    have hr : hasCut lane cut (lane r) l = false := by simpa [hasCut] using fun x hx _ => hl x hx
    rw [view, hr, ih hl]
    rfl

theorem view_append_cons (hla : ∀ r ∈ l, lane r = lane c) (hc : cut c = true)
    (hm : ∀ r ∈ m, cut r = false) : view lane cut (l ++ c :: m) = c :: m := by
  have hl : (view lane cut l).filter (fun r => !hasCut lane cut (lane r) (c :: m)) = [] := by
    induction l with
    | nil => rfl
    | cons r l ih =>
      have hr := hla r (by simp)
      have ih := ih fun x hx => hla x (by simp [hx])
      rw [view]
      split
      · exact ih
      · simpa [hr, hc] using ih
  have hd : hasCut lane cut (lane c) m = false := by simpa [hasCut] using fun x hx _ => hm x hx
  rw [view_append, hl, view, hd, view_eq_self hm]
  rfl

end

end RioBuild.Lib.LaneLog
