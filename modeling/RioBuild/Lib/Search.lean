import Mathlib

namespace RioBuild.Lib.Search

open Finset

variable {α : Type*}

section Unseen

variable [DecidableEq α]

def unseen (seen : Finset α) : List α → List α
  | [] => []
  | x :: xs => if x ∈ seen then unseen seen xs else x :: unseen (insert x seen) xs

variable {seen : Finset α} {x : α} {xs : List α}

@[simp] theorem mem_unseen : x ∈ unseen seen xs ↔ x ∈ xs ∧ x ∉ seen := by
  induction xs generalizing seen with
  | nil => simp [unseen]
  | cons y xs ih =>
    rw [unseen]
    split_ifs with hy
    · rw [ih, List.mem_cons]
      constructor
      · exact fun h => ⟨.inr h.1, h.2⟩
      · rintro ⟨rfl | hx, hs⟩
        · exact absurd hy hs
        · exact ⟨hx, hs⟩
    · rw [List.mem_cons, ih]
      by_cases hxy : x = y
      · simp [hxy, hy]
      · simp [hxy]

theorem nodup_unseen : (unseen seen xs).Nodup := by
  induction xs generalizing seen with
  | nil => exact List.nodup_nil
  | cons y xs ih =>
    rw [unseen]
    split
    · exact ih
    · exact List.nodup_cons.mpr ⟨by simp, ih⟩

theorem unseen_append :
    unseen seen (xs ++ ys) = unseen seen xs ++ unseen (seen ∪ xs.toFinset) ys := by
  induction xs generalizing seen with
  | nil => simp [unseen]
  | cons y xs ih =>
    rw [List.cons_append, unseen, unseen]
    split_ifs with hy
    · rw [ih, List.toFinset_cons, union_insert, insert_eq_of_mem]
      exact mem_union_left _ hy
    · rw [ih, List.toFinset_cons, List.cons_append, union_insert, insert_union]

end Unseen

/-- What has been seen lies within reach of the start, and what has been expanded has its
successors seen. -/
structure Searched (step : α → α → Prop) (start seen done : Set α) : Prop where
  start_subset : start ⊆ seen
  reached : ∀ x ∈ seen, ∃ s ∈ start, Relation.ReflTransGen step s x
  closed : ∀ x ∈ done, ∀ y, step x y → y ∈ seen

variable {start seen : Set α} {x : α}

theorem Searched.mem_iff (h : Searched step start seen done) (hd : seen ⊆ done) :
    x ∈ seen ↔ ∃ s ∈ start, Relation.ReflTransGen step s x := by
  refine ⟨h.reached x, ?_⟩
  rintro ⟨s, hs, hr⟩
  induction hr with
  | refl => exact h.start_subset hs
  | tail _ hst ih => exact h.closed _ (hd ih) _ hst

section Visit

variable [DecidableEq α] (succ : α → Option (List α))

/-- Expands the top of the stack until the stack is empty, or fails at what has no successors to
give. -/
def visit : Nat → Finset α → List α → Except α (Finset α)
  | _, seen, [] => .ok seen
  | 0, _, x :: _ => .error x
  | fuel + 1, seen, x :: stack =>
    match succ x with
    | none => .error x
    | some next =>
      visit fuel (seen ∪ (unseen seen next).toFinset) ((unseen seen next).reverse ++ stack)

def Succ (x y : α) : Prop := ∃ next, succ x = some next ∧ y ∈ next

variable {succ} {start : Set α} {seen : Finset α} {stack : List α}

structure Visiting (succ : α → Option (List α)) (start : Set α) (seen : Finset α)
    (stack : List α) : Prop where
  searched : Searched (Succ succ) start seen { x | x ∈ seen ∧ x ∉ stack }
  stack_subset : ∀ x ∈ stack, x ∈ seen
  nodup : stack.Nodup
  found : ∀ x ∈ seen, x ∉ stack → (succ x).isSome

theorem Visiting.expand (h : Visiting succ start seen (x :: stack)) (hx : succ x = some next) :
    Visiting succ start (seen ∪ (unseen seen next).toFinset)
      ((unseen seen next).reverse ++ stack) := by
  obtain ⟨hx', hnd⟩ := List.nodup_cons.mp h.nodup
  have hxs : x ∈ seen := h.stack_subset x List.mem_cons_self
  have hsp : ∀ y, y ∈ seen ∪ (unseen seen next).toFinset →
      y ∉ (unseen seen next).reverse ++ stack → y = x ∨ y ∈ seen ∧ y ∉ x :: stack := by
    intro y hy hsk
    simp only [mem_union, List.mem_toFinset, List.mem_append, List.mem_reverse, not_or]
      at hy hsk
    have hy := hy.resolve_right hsk.1
    by_cases heq : y = x
    · exact .inl heq
    · exact .inr ⟨hy, by simp [heq, hsk.2]⟩
  refine ⟨⟨?_, ?_, ?_⟩, ?_, ?_, ?_⟩
  · exact h.searched.start_subset.trans (by simp)
  · intro y hy
    simp only [coe_union, Set.mem_union, mem_coe, List.mem_toFinset, mem_unseen]
      at hy
    rcases hy with hy | ⟨hy, -⟩
    · exact h.searched.reached y hy
    · obtain ⟨s, hs, hr⟩ := h.searched.reached x hxs
      exact ⟨s, hs, hr.tail ⟨next, hx, hy⟩⟩
  · rintro y ⟨hy, hsk⟩ z hz
    rcases hsp y hy hsk with rfl | hd
    · obtain ⟨next', hn', hz⟩ := hz
      rw [hx] at hn'
      cases hn'
      simp only [coe_union, Set.mem_union, mem_coe, List.mem_toFinset, mem_unseen]
      tauto
    · have := h.searched.closed y hd z hz
      simp [this]
  · intro y hy
    simp only [List.mem_append, List.mem_reverse, mem_union, List.mem_toFinset] at hy ⊢
    rcases hy with hy | hy
    · exact .inr hy
    · exact .inl (h.stack_subset y (List.mem_cons_of_mem _ hy))
  · refine List.nodup_append.mpr ⟨List.nodup_reverse.mpr nodup_unseen, hnd, ?_⟩
    rintro y hy z hz rfl
    rw [List.mem_reverse, mem_unseen] at hy
    exact hy.2 (h.stack_subset y (List.mem_cons_of_mem _ hz))
  · intro y hy hsk
    rcases hsp y hy hsk with rfl | hd
    · simp [hx]
    · exact h.found y hd.1 hd.2

omit [DecidableEq α] in
theorem Visiting.mem_iff (h : Visiting succ start seen []) :
    x ∈ seen ↔ ∃ s ∈ start, Relation.ReflTransGen (Succ succ) s x :=
  h.searched.mem_iff fun _ hx => ⟨hx, List.not_mem_nil⟩

def Ended (succ : α → Option (List α)) (start : Set α) : Except α (Finset α) → Prop
  | .ok seen => Visiting succ start seen []
  | .error x => succ x = none ∧ ∃ s ∈ start, Relation.ReflTransGen (Succ succ) s x

theorem Visiting.visit (h : Visiting succ start seen stack) (all : Finset α)
    (ha : ∀ x next, succ x = some next → ∀ y ∈ next, y ∈ all)
    (hf : (all \ seen).card + stack.length ≤ fuel) :
    Ended succ start (Search.visit succ fuel seen stack) := by
  induction fuel generalizing seen stack with
  | zero =>
    have hn : stack = [] := List.length_eq_zero_iff.mp (by omega)
    subst hn
    exact h
  | succ fuel ih =>
    cases stack with
    | nil => exact h
    | cons x stack =>
      rw [visit]
      cases hx : succ x with
      | none => exact ⟨hx, h.searched.reached x (h.stack_subset x List.mem_cons_self)⟩
      | some next =>
        refine ih (h.expand hx) ?_
        have hne : (unseen seen next).toFinset ⊆ all \ seen := by
          intro y hy
          rw [List.mem_toFinset, mem_unseen] at hy
          exact mem_sdiff.mpr ⟨ha x next hx y hy.1, hy.2⟩
        have hc := card_sdiff_add_card_eq_card hne
        rw [List.toFinset_card_of_nodup nodup_unseen, sdiff_sdiff_left] at hc
        simp only [List.length_append, List.length_reverse, List.length_cons] at hf ⊢
        rw [sup_eq_union] at hc
        omega

end Visit

section Collect

variable [DecidableEq α] (succ : α → List α)

def collect : Nat → Finset α → List α → Option (Finset α)
  | _, seen, [] => some seen
  | 0, _, _ :: _ => none
  | fuel + 1, seen, x :: queue =>
    if x ∈ seen then collect fuel seen queue else collect fuel (insert x seen) (queue ++ succ x)

variable {succ} {start : Set α} {seen : Finset α}

def Collecting (succ : α → List α) (start : Set α) (seen : Finset α) (queue : List α) : Prop :=
  Searched (fun x y => y ∈ succ x) start { x | x ∈ seen ∨ x ∈ queue } seen

omit [DecidableEq α] in
theorem Collecting.skip (h : Collecting succ start seen (x :: queue)) (hx : x ∈ seen) :
    Collecting succ start seen queue := by
  have hs : { y | y ∈ seen ∨ y ∈ x :: queue } = { y | y ∈ seen ∨ y ∈ queue } := by
    ext y
    simp only [List.mem_cons]
    exact ⟨fun hy => hy.elim .inl (Or.rec (fun heq => .inl (heq ▸ hx)) .inr),
      fun hy => hy.imp_right .inr⟩
  unfold Collecting at h ⊢
  rwa [hs] at h

theorem Collecting.take (h : Collecting succ start seen (x :: queue)) :
    Collecting succ start (insert x seen) (queue ++ succ x) := by
  refine ⟨fun y hy => ?_, fun y hy => ?_, fun y hy z hz => ?_⟩
  · have := h.start_subset hy
    simp only [Set.mem_ofPred_eq, List.mem_cons, mem_insert, List.mem_append] at this ⊢
    tauto
  · simp only [Set.mem_ofPred_eq, mem_insert, List.mem_append] at hy
    by_cases ho : y ∈ seen ∨ y ∈ x :: queue
    · exact h.reached y ho
    · obtain ⟨s, hs, hr⟩ := h.reached x (.inr List.mem_cons_self)
      rw [List.mem_cons] at ho
      exact ⟨s, hs, hr.tail (by tauto)⟩
  · simp only [mem_insert, List.mem_append]
    rcases mem_insert.mp hy with rfl | hy
    · exact .inr (.inr hz)
    · have := h.closed y hy z hz
      simp only [Set.mem_ofPred_eq, List.mem_cons] at this
      tauto

theorem Collecting.collect (h : Collecting succ start seen queue) (hq : ∀ x ∈ queue, x ∈ all)
    (ha : ∀ x, ∀ y ∈ succ x, y ∈ all)
    (hf : queue.length + ∑ x ∈ all \ seen, (succ x).length ≤ fuel) :
    ∃ result, Search.collect succ fuel seen queue = some result ∧
      ∀ x, x ∈ result ↔ ∃ s ∈ start, Relation.ReflTransGen (fun x y => y ∈ succ x) s x := by
  induction fuel generalizing seen queue with
  | zero =>
    obtain rfl : queue = [] := List.length_eq_zero_iff.mp (by omega)
    refine ⟨seen, rfl, fun x => ?_⟩
    rw [← h.mem_iff (by simp)]
    simp
  | succ fuel ih =>
    cases queue with
    | nil =>
      refine ⟨seen, rfl, fun x => ?_⟩
      rw [← h.mem_iff (by simp)]
      simp
    | cons x queue =>
      obtain ⟨hx, hq⟩ := List.forall_mem_cons.mp hq
      rw [collect]
      rw [List.length_cons] at hf
      split_ifs with hs
      · exact ih (h.skip hs) hq (by omega)
      · refine ih h.take (fun y hy => ?_) ?_
        · exact (List.mem_append.mp hy).elim (hq y) (ha x y)
        · have hsu := add_sum_erase (all \ seen) (fun x => (succ x).length) (mem_sdiff.mpr ⟨hx, hs⟩)
          rw [← sdiff_insert] at hsu
          rw [List.length_append]
          omega

end Collect

end RioBuild.Lib.Search
