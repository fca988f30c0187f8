import Mathlib.Data.List.Basic

namespace RioBuild.Lib

open List

def numberFrom : Nat → List α → List (Nat × α)
  | _, [] => []
  | n, x :: xs => (n, x) :: numberFrom (n + 1) xs

@[simp] theorem numberFrom_nil : numberFrom n ([] : List α) = [] := rfl

@[simp] theorem numberFrom_cons : numberFrom n (x :: xs) = (n, x) :: numberFrom (n + 1) xs := rfl

@[simp] theorem length_numberFrom : (numberFrom n xs).length = xs.length := by
  induction xs generalizing n with
  | nil => rfl
  | cons x xs ih => simp [ih]

@[simp] theorem map_snd_numberFrom : (numberFrom n xs).map Prod.snd = xs := by
  induction xs generalizing n with
  | nil => rfl
  | cons x xs ih => simp [ih]

@[simp] theorem map_fst_numberFrom : (numberFrom n xs).map Prod.fst = List.range' n xs.length := by
  induction xs generalizing n with
  | nil => rfl
  | cons x xs ih => simp [ih, range'_succ]

theorem numberFrom_append :
    numberFrom n (xs ++ ys) = numberFrom n xs ++ numberFrom (n + xs.length) ys := by
  induction xs generalizing n with
  | nil => rfl
  | cons x xs ih =>
    rw [cons_append, numberFrom_cons, ih, numberFrom_cons, cons_append,
      length_cons, Nat.add_assoc, Nat.add_comm 1]

theorem mem_numberFrom : (k, x) ∈ numberFrom n xs ↔ n ≤ k ∧ xs[k - n]? = some x := by
  induction xs generalizing n with
  | nil => simp
  | cons y xs ih =>
    rw [numberFrom_cons, mem_cons, ih]
    constructor
    · rintro (⟨rfl, rfl⟩ | ⟨hle, hx⟩)
      · simp
      · refine ⟨by omega, ?_⟩
        rw [show k - n = k - (n + 1) + 1 by omega]
        exact hx
    · rintro ⟨hle, hx⟩
      rcases Nat.eq_or_lt_of_le hle with rfl | hlt
      · left
        simpa [eq_comm] using hx
      · right
        rw [show k - n = k - (n + 1) + 1 by omega] at hx
        exact ⟨hlt, hx⟩

theorem bounds_of_mem_numberFrom (h : p ∈ numberFrom n xs) : n ≤ p.1 ∧ p.1 < n + xs.length := by
  obtain ⟨hle, hx⟩ := mem_numberFrom.mp h
  obtain ⟨hlt, _⟩ := List.getElem?_eq_some_iff.mp hx
  omega

theorem pairwise_numberFrom (n : Nat) (xs : List α) :
    (numberFrom n xs).Pairwise fun p q => p.1 < q.1 := by
  induction xs generalizing n with
  | nil => exact List.Pairwise.nil
  | cons x xs ih =>
    refine pairwise_cons.mpr ⟨fun q hq => ?_, ih (n + 1)⟩
    exact (bounds_of_mem_numberFrom hq).1

theorem filter_numberFrom (b : Nat) (xs : List α) (h : n ≤ a) :
    (numberFrom n xs).filter (fun p => a ≤ p.1 ∧ p.1 < b) =
      numberFrom a ((xs.drop (a - n)).take (b - a)) := by
  induction xs generalizing n a with
  | nil => simp
  | cons x xs ih =>
    rcases Nat.eq_or_lt_of_le h with rfl | hlt
    · by_cases hb : n < b
      · have hr : (numberFrom (n + 1) xs).filter (fun p => n ≤ p.1 ∧ p.1 < b) =
            (numberFrom (n + 1) xs).filter (fun p => n + 1 ≤ p.1 ∧ p.1 < b) := by
          refine filter_congr fun p hp => ?_
          have := (bounds_of_mem_numberFrom hp).1
          simp only [decide_eq_decide]
          omega
        rw [numberFrom_cons, filter_cons, if_pos (by simpa using hb), hr,
          ih (Nat.le_refl _), show b - n = b - (n + 1) + 1 by omega]
        simp
      · have hn : (numberFrom n (x :: xs)).filter (fun p => n ≤ p.1 ∧ p.1 < b) = [] := by
          refine filter_eq_nil_iff.mpr fun p hp => ?_
          simp only [decide_eq_true_eq]
          omega
        rw [hn, show b - n = 0 by omega]
        simp
    · rw [numberFrom_cons, filter_cons, if_neg (by simp; omega), ih hlt,
        show a - n = a - (n + 1) + 1 by omega, drop_succ_cons]

theorem take_numberFrom : (numberFrom n xs).take k = numberFrom n (xs.take k) := by
  induction xs generalizing n k with
  | nil => simp
  | cons x xs ih =>
    cases k with
    | zero => rfl
    | succ k => simp [ih]

theorem drop_numberFrom : (numberFrom n xs).drop k = numberFrom (n + k) (xs.drop k) := by
  induction xs generalizing n k with
  | nil => simp
  | cons x xs ih =>
    cases k with
    | zero => rfl
    | succ k =>
      rw [numberFrom_cons, drop_succ_cons, drop_succ_cons, ih, Nat.add_assoc, Nat.add_comm 1]

theorem mem_numberFrom_drop (h : n ≤ k) :
    p ∈ numberFrom k (xs.drop (k - n)) ↔ p ∈ numberFrom n xs ∧ k ≤ p.1 := by
  obtain ⟨i, x⟩ := p
  rw [mem_numberFrom, mem_numberFrom, getElem?_drop]
  constructor
  · rintro ⟨hle, hx⟩
    rw [show k - n + (i - k) = i - n by omega] at hx
    exact ⟨⟨Nat.le_trans h hle, hx⟩, hle⟩
  · rintro ⟨⟨_, hx⟩, hle⟩
    rw [show k - n + (i - k) = i - n by omega]
    exact ⟨hle, hx⟩

theorem numberFrom_ne_nil (h : xs ≠ []) : numberFrom n xs ≠ [] := by
  cases xs with
  | nil => exact absurd rfl h
  | cons x xs => simp

def window (xs : List α) (a b : Nat) : List (Nat × α) := numberFrom a ((xs.drop a).take (b - a))

theorem window_eq_nil (h : b ≤ a) : window xs a b = [] := by
  rw [window, Nat.sub_eq_zero_of_le h, take_zero, numberFrom_nil]

theorem le_of_window_eq_nil (hb : b ≤ xs.length) (h : window xs a b = []) : b ≤ a := by
  have := congrArg length h
  rw [window, length_numberFrom, length_take, length_drop, length_nil] at this
  omega

theorem window_eq_filter (xs : List α) :
    window xs a b = (numberFrom 0 xs).filter fun p => a ≤ p.1 ∧ p.1 < b := by
  rw [filter_numberFrom b xs (Nat.zero_le a), Nat.sub_zero, window]

theorem filter_window (xs : List α) :
    (window xs a b).filter (fun p => c ≤ p.1) = window xs (max a c) b := by
  rw [window_eq_filter, window_eq_filter, filter_filter]
  refine filter_congr fun p _ => ?_
  simp only [← Bool.decide_and, decide_eq_decide]
  omega

theorem mem_of_mem_window (h : p ∈ window xs a b) : p ∈ numberFrom 0 xs := by
  rw [window_eq_filter] at h
  exact mem_of_mem_filter h

theorem window_append_window (ha : a ≤ b) (hb : b ≤ c) :
    window xs a b ++ window xs b c = window xs a c := by
  have hs : (xs.drop a).take (c - a) = (xs.drop a).take (b - a) ++ (xs.drop b).take (c - b) := by
    rw [show c - a = (b - a) + (c - b) by omega, take_add, drop_drop, show a + (b - a) = b by omega]
  rw [window, window, window, hs, numberFrom_append, length_take, length_drop]
  by_cases hl : b ≤ xs.length
  · rw [show a + min (b - a) (xs.length - a) = b by omega]
  · have hn : xs.drop b = [] := drop_eq_nil_of_le (by omega)
    rw [hn, take_nil, numberFrom_nil, numberFrom_nil]

theorem window_append (ys : List α) (h : b ≤ xs.length ∨ b ≤ a) :
    window (xs ++ ys) a b = window xs a b := by
  rcases h with h | h
  · rw [window, window, drop_append, take_append, length_drop,
      show b - a - (xs.length - a) = 0 by omega, take_zero, append_nil]
  · rw [window_eq_nil h, window_eq_nil h]

theorem numberFrom_eq_window (h : ∀ p ∈ numberFrom a ys, p ∈ numberFrom 0 xs) :
    numberFrom a ys = window xs a (a + ys.length) := by
  have hy : ys = (xs.drop a).take ys.length := by
    refine ext_getElem? fun i => ?_
    rw [getElem?_take]
    split_ifs with hi
    · have hm := mem_numberFrom.mp (h (a + i, ys[i])
        (mem_numberFrom.mpr ⟨Nat.le_add_right _ _, by simp⟩))
      rw [getElem?_drop, getElem?_eq_getElem hi, ← hm.2, Nat.sub_zero]
    · rw [getElem?_eq_none (by omega)]
  rw [window, Nat.add_sub_cancel_left, ← hy]

theorem window_of_prefix (h : l <+: window xs a b) :
    ∃ c, a ≤ c ∧ l = window xs a c ∧ (c ≤ xs.length ∨ c = a) := by
  have hl := h.length_le
  rw [window, length_numberFrom, length_take, length_drop] at hl
  refine ⟨a + l.length, by omega, ?_, by omega⟩
  conv_lhs => rw [prefix_iff_eq_take.mp h]
  rw [window, take_numberFrom, take_take, window, Nat.add_sub_cancel_left,
    Nat.min_eq_left (by omega)]

theorem window_of_length_le (h : xs.length ≤ b) : window xs a b = numberFrom a (xs.drop a) := by
  rw [window, take_of_length_le]
  rw [length_drop]
  omega

end RioBuild.Lib
