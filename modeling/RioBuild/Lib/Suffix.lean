import Mathlib.Data.Finset.Card
import Mathlib.Data.List.DropRight
import RioBuild.Lib.Word

namespace RioBuild.Lib

open List

variable {α : Type*}

def afterLast (cut : α → Bool) (l : List α) : List α := l.rtakeWhile (fun a => !cut a)

def rposition (p : α → Bool) : List α → Option Nat
  | [] => none
  | a :: l =>
    match rposition p l with
    | some i => some (i + 1)
    | none => if p a then some 0 else none

theorem rposition_eq_none_iff (p : α → Bool) (l : List α) :
    rposition p l = none ↔ l.any p = false := by
  induction l with
  | nil => simp [rposition]
  | cons a l ih =>
    cases h : rposition p l with
    | some j => simp_all [rposition]
    | none => cases ha : p a <;> simp_all [rposition]

theorem rposition_getD_le_iff (p : α → Bool) (l : List α) (i : Nat) :
    (rposition p l).getD 0 ≤ i ↔ (l.drop (i + 1)).any p = false := by
  induction l generalizing i with
  | nil => simp [rposition]
  | cons a l ih =>
    cases h : rposition p l with
    | none =>
      have hl := (rposition_eq_none_iff p l).mp h
      have hd : (l.drop i).any p = false := by
        rw [any_eq_false] at hl ⊢
        intro x hx
        exact hl x (mem_of_mem_drop hx)
      cases ha : p a <;> simp [rposition, h, ha, hd]
    | some j =>
      have hl : l.any p = true := by
        rw [← Bool.not_eq_false, ← rposition_eq_none_iff p l, h]
        exact Option.some_ne_none j
      cases i with
      | zero => simp [rposition, h, hl]
      | succ i => simpa [rposition, h] using ih i

theorem rposition_append_cons (hc : p c = true) (hm : ∀ a ∈ m, p a = false) :
    rposition p (l ++ c :: m) = some l.length := by
  induction l with
  | nil =>
    have hn : rposition p m = none := by simpa [rposition_eq_none_iff] using hm
    simp [rposition, hn, hc]
  | cons a l ih => simp [rposition, ih]

theorem exists_last_or_forall (p : α → Bool) (l : List α) : (∀ a ∈ l, p a = false) ∨
    ∃ pre c post, l = pre ++ c :: post ∧ p c = true ∧ ∀ a ∈ post, p a = false := by
  induction l using reverseRecOn with
  | nil => simp
  | append_singleton l a ih =>
    cases ha : p a with
    | true => exact .inr ⟨l, a, [], rfl, ha, by simp⟩
    | false =>
      rcases ih with h | ⟨pre, c, post, rfl, hc, hp⟩
      · left
        simpa [or_imp, forall_and, ha] using h
      · refine .inr ⟨pre, c, post ++ [a], by simp, hc, ?_⟩
        simpa [or_imp, forall_and, ha] using hp

@[simp] theorem afterLast_nil : afterLast cut [] = [] := by simp [afterLast]

theorem afterLast_concat :
    afterLast cut (l ++ [a]) = if cut a then [] else afterLast cut l ++ [a] := by
  rw [afterLast, rtakeWhile_concat]
  cases cut a <;> rfl

theorem afterLast_suffix (l : List α) : afterLast cut l <:+ l := rtakeWhile_suffix _ l

theorem afterLast_eq_self (h : ∀ a ∈ l, cut a = false) : afterLast cut l = l := by
  rw [afterLast, rtakeWhile_eq_self_iff]
  intro a ha
  simp [h a ha]

theorem afterLast_append (hm : ∀ a ∈ m, cut a = false) :
    afterLast cut (l ++ m) = afterLast cut l ++ m := by
  induction m using reverseRecOn with
  | nil => simp
  | append_singleton m a ih =>
    have ha : cut a = false := hm a (by simp)
    rw [← append_assoc, afterLast_concat, ha, ih fun b hb => hm b (by simp [hb]), ← append_assoc]
    rfl

theorem afterLast_append_cons (hc : cut c = true) (hm : ∀ a ∈ m, cut a = false) :
    afterLast cut (l ++ c :: m) = m := by
  rw [append_cons, afterLast_append hm, afterLast_concat, hc]
  rfl

theorem afterLast_subset (h : ∀ a, cut' a = true → cut a = true) :
    afterLast cut l ⊆ afterLast cut' l := by
  induction l using reverseRecOn with
  | nil => simp
  | append_singleton l a ih =>
    rw [afterLast_concat, afterLast_concat]
    cases hc : cut a with
    | true => simp
    | false =>
      have hc' : cut' a = false := by
        rw [← Bool.not_eq_true]
        intro ha
        simp [h a ha] at hc
      simpa [hc'] using subset_append_of_subset_left [a] ih

theorem filter_afterLast (h : ∀ a, cut a = true → p a = true) :
    (afterLast cut l).filter p = afterLast cut (l.filter p) := by
  induction l using reverseRecOn with
  | nil => simp
  | append_singleton l a ih =>
    cases hc : cut a with
    | true => simp [h a hc, afterLast_concat, hc]
    | false => cases hp : p a <;> simp [hp, ih, afterLast_concat, hc]

theorem drop_rposition : l.drop ((rposition p l).elim 0 (· + 1)) = afterLast p l := by
  rcases exists_last_or_forall p l with hn | ⟨pre, c, post, rfl, hc, hp⟩
  · have : rposition p l = none := by simpa [rposition_eq_none_iff] using hn
    rw [this, afterLast_eq_self hn]
    rfl
  · rw [rposition_append_cons hc hp, afterLast_append_cons hc hp]
    simp

/-- A projection of a left fold that every cut sends back to `b₀` and every other
element advances on its own is the fold of the part after the last cut. -/
theorem foldl_afterLast {g : σ → β}
    (h : ∀ s a, g (f s a) = if cut a then b0 else k (g s) a) (hs : g s = b0)
    (l : List α) : g (l.foldl f s) = (afterLast cut l).foldl k b0 := by
  induction l using reverseRecOn with
  | nil => simp [hs]
  | append_singleton l a ih =>
    rw [foldl_concat, h, afterLast_concat]
    cases cut a with
    | true => rfl
    | false => simp [ih]

/-- Streaks: when between two cuts at most `M` elements are marked, and no cut is
marked, the whole log has at most `M` marks for each cut and `M` more. -/
theorem countP_le_of_streak (hc : ∀ a, cut a = true → p a = false)
    (h : ∀ q, q <+: l → (afterLast cut q).countP p ≤ M) : l.countP p ≤ M * (l.countP cut + 1) := by
  suffices H : l.countP p ≤ M * l.countP cut + (afterLast cut l).countP p by
    have := h l prefix_rfl
    rw [Nat.mul_succ]
    omega
  induction l using reverseRecOn with
  | nil => simp
  | append_singleton l a ih =>
    have ih := ih fun q hq => h q (hq.trans (prefix_append l [a]))
    have hl := h l (prefix_append l [a])
    rw [afterLast_concat]
    cases ha : cut a with
    | true =>
      simp only [countP_append, countP_singleton, hc a ha, ha, Bool.false_eq_true,
        if_true, if_false, Nat.mul_add]
      omega
    | false =>
      simp only [countP_append, countP_singleton, ha, Bool.false_eq_true, if_false, add_zero]
      omega

section Counting

variable (p : α → Bool)

theorem foldl_tally (l : List α) :
    l.foldl (fun (n : UInt32) a => if p a then n + 1 else n) 0 = UInt32.ofNat (l.countP p) := by
  induction l using reverseRecOn with
  | nil => rfl
  | append_singleton l a ih =>
    rw [foldl_concat, ih, countP_append, countP_singleton]
    cases p a with
    | true => simp
    | false => simp

theorem foldl_capped {bump : UInt32 → UInt32} {cap : Nat}
    (h : ∀ n : UInt32, n.toNat ≤ cap → (bump n).toNat = min cap (n.toNat + 1)) (l : List α) :
    (l.foldl (fun n a => if p a then bump n else n) 0).toNat = min cap (l.countP p) := by
  induction l using reverseRecOn with
  | nil => simp
  | append_singleton l a ih =>
    rw [foldl_concat, countP_append, countP_singleton]
    cases p a with
    | true =>
      rw [if_pos rfl, h _ (by omega)]
      simp only [if_true]
      omega
    | false => simpa using ih

theorem mem_foldl_insert [DecidableEq β] (f : α → Option β) (l : List α) :
    b ∈ l.foldl (fun s a => (f a).elim s (insert · s)) (∅ : Finset β) ↔ ∃ a ∈ l, f a = some b := by
  induction l using reverseRecOn with
  | nil => simp
  | append_singleton l a ih =>
    cases ha : f a with
    | none => simp [ih, ha]
    | some b' => simp [ih, ha, or_comm, eq_comm]

end Counting

end RioBuild.Lib
