import Mathlib.Data.List.Pairwise
import Mathlib.Order.Lattice

namespace RioBuild.Lib

open List

structure OrdMap (κ υ : Type) [LinearOrder κ] where
  entries : List (κ × υ)
  sorted : entries.Pairwise fun a b => a.1 < b.1
  deriving DecidableEq

namespace OrdMap

variable [LinearOrder κ] {m : OrdMap κ υ} {k k' : κ} {v : υ} {l : List (κ × υ)}

@[ext] theorem ext {m m' : OrdMap κ υ} (h : m.entries = m'.entries) : m = m' := by
  cases m'
  cases h
  rfl

def empty : OrdMap κ υ := ⟨[], .nil⟩

def keys (m : OrdMap κ υ) : List κ := m.entries.map Prod.fst

def insertEntry (k : κ) (v : υ) : List (κ × υ) → List (κ × υ)
  | [] => [(k, v)]
  | (k', v') :: l =>
    if k < k' then (k, v) :: (k', v') :: l
    else if k = k' then (k, v) :: l
    else (k', v') :: insertEntry k v l

theorem mem_insertEntry (h : e ∈ insertEntry k v l) : e = (k, v) ∨ e ∈ l := by
  induction l with
  | nil => exact .inl (mem_singleton.mp h)
  | cons a l ih =>
    rw [insertEntry] at h
    split at h
    · exact mem_cons.mp h
    split at h
    · exact (mem_cons.mp h).imp_right (mem_cons_of_mem a)
    · rcases mem_cons.mp h with rfl | h
      · exact .inr mem_cons_self
      · exact (ih h).imp_right (mem_cons_of_mem a)

theorem sorted_insertEntry (h : l.Pairwise fun a b => a.1 < b.1) :
    (insertEntry k v l).Pairwise fun a b => a.1 < b.1 := by
  induction l with
  | nil => exact pairwise_singleton _ _
  | cons a l ih =>
    obtain ⟨ha, hl⟩ := pairwise_cons.mp h
    rw [insertEntry]
    split
    · rename_i hlt
      refine .cons (forall_mem_cons.mpr ⟨hlt, fun b hb => ?_⟩) h
      exact hlt.trans (ha b hb)
    split
    · rename_i heq
      exact .cons (fun b hb => heq ▸ ha b hb) hl
    · rename_i hlt hne
      refine .cons (fun b hb => ?_) (ih hl)
      rcases mem_insertEntry hb with rfl | hb
      · exact lt_of_le_of_ne (not_lt.mp hlt) (Ne.symm hne)
      · exact ha b hb

def insert (m : OrdMap κ υ) (k : κ) (v : υ) : OrdMap κ υ :=
  ⟨insertEntry k v m.entries, sorted_insertEntry m.sorted⟩

def extend (m : OrdMap κ υ) (l : List (κ × υ)) : OrdMap κ υ :=
  l.foldl (fun m e => m.insert e.1 e.2) m

theorem extend_cons : m.extend (e :: l) = (m.insert e.1 e.2).extend l := rfl

def ofList (l : List (κ × υ)) : OrdMap κ υ := empty.extend l

def get? (m : OrdMap κ υ) (k : κ) : Option υ := (m.entries.find? (·.1 = k)).map Prod.snd

theorem find?_insertEntry :
    (insertEntry k v l).find? (·.1 = k') = if k' = k then some (k, v) else l.find? (·.1 = k') := by
  induction l with
  | nil => by_cases h : k' = k <;> simp [insertEntry, h, Ne.symm]
  | cons a l ih =>
    rw [insertEntry]
    split
    · by_cases h : k' = k <;> simp [h, Ne.symm]
    split
    · rename_i heq
      by_cases h : k' = k <;> simp [← heq, h, Ne.symm]
    · rename_i hne
      rw [find?_cons, find?_cons, ih]
      by_cases h : k' = k
      · simp [h, Ne.symm hne]
      · simp [h]

theorem get?_insert : (m.insert k v).get? k' = if k' = k then some v else m.get? k' := by
  rw [get?, insert, find?_insertEntry]
  split <;> rfl

theorem get?_extend : (m.extend l).get? k ≠ none ↔ m.get? k ≠ none ∨ ∃ v, (k, v) ∈ l := by
  induction l generalizing m with
  | nil => simp [extend]
  | cons e l ih =>
    obtain ⟨k', v'⟩ := e
    rw [extend_cons, ih, get?_insert]
    by_cases h : k = k'
    all_goals simp [h]

theorem insertEntry_last (h : ∀ a ∈ l, a.1 < k) : insertEntry k v l = l ++ [(k, v)] := by
  induction l with
  | nil => rfl
  | cons a l ih =>
    obtain ⟨ha, hl⟩ := forall_mem_cons.mp h
    rw [insertEntry, if_neg ha.not_gt, if_neg ha.ne', ih hl, cons_append]

theorem entries_extend_sorted (h : (m.entries ++ l).Pairwise fun a b => a.1 < b.1) :
    (m.extend l).entries = m.entries ++ l := by
  induction l generalizing m with
  | nil => exact (append_nil _).symm
  | cons e l ih =>
    have hl : (m.insert e.1 e.2).entries = m.entries ++ [e] := by
      refine insertEntry_last fun a ha => ?_
      exact (pairwise_append.mp h).2.2 a ha e mem_cons_self
    have hs : ((m.insert e.1 e.2).entries ++ l).Pairwise fun a b => a.1 < b.1 := by
      rw [hl, append_assoc]
      exact h
    rw [extend_cons, ih hs, hl, append_assoc]
    rfl

@[simp] theorem ofList_entries : ofList m.entries = m := by
  refine ext (entries_extend_sorted ?_)
  exact m.sorted

theorem length_insertEntry_le : (insertEntry k v l).length ≤ l.length + 1 := by
  induction l with
  | nil => exact le_refl 1
  | cons a l ih =>
    rw [insertEntry]
    split
    · exact le_rfl
    split
    · exact Nat.le_succ _
    · exact Nat.succ_le_succ ih

theorem length_extend_le (m : OrdMap κ υ) (l : List (κ × υ)) :
    (m.extend l).entries.length ≤ m.entries.length + l.length := by
  induction l generalizing m with
  | nil => exact le_rfl
  | cons e l ih =>
    have hi : (m.insert e.1 e.2).entries.length ≤ m.entries.length + 1 :=
      length_insertEntry_le
    have hr := ih (m.insert e.1 e.2)
    rw [extend_cons, length_cons]
    omega

theorem length_ofList_le (l : List (κ × υ)) : (ofList l : OrdMap κ υ).entries.length ≤ l.length :=
  le_trans (length_extend_le empty l) (le_of_eq (Nat.zero_add _))

theorem mem_extend (h : e ∈ (m.extend l).entries) : e ∈ m.entries ∨ e ∈ l := by
  induction l generalizing m with
  | nil => exact .inl h
  | cons a l ih =>
    rcases ih h with h | h
    · rcases mem_insertEntry h with rfl | h
      · exact .inr mem_cons_self
      · exact .inl h
    · exact .inr (mem_cons_of_mem a h)

theorem mem_ofList (h : e ∈ (ofList l).entries) : e ∈ l :=
  (mem_extend h).resolve_left not_mem_nil

end OrdMap

abbrev OrdSet (κ : Type) [LinearOrder κ] := OrdMap κ Unit

namespace OrdSet

variable {κ : Type} [LinearOrder κ]

def elems (s : OrdSet κ) : List κ := s.entries.map Prod.fst

def extend (s : OrdSet κ) (l : List κ) : OrdSet κ := OrdMap.extend s (l.map (·, ()))

def ofList (l : List κ) : OrdSet κ := OrdMap.ofList (l.map (·, ()))

theorem map_elems (s : OrdSet κ) : s.elems.map (·, ()) = s.entries := by
  rw [elems, map_map]
  exact map_id _

@[simp] theorem ofList_elems (s : OrdSet κ) : ofList s.elems = s := by
  rw [ofList, map_elems, OrdMap.ofList_entries]

theorem length_ofList_le (l : List κ) : (ofList l).elems.length ≤ l.length := by
  rw [elems, length_map]
  exact le_trans (OrdMap.length_ofList_le _) (le_of_eq (length_map _))

end OrdSet

end RioBuild.Lib
