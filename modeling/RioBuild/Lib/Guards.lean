import Mathlib.Data.List.Forall2

namespace RioBuild.Lib.Guards

open List

variable {ε α β : Type} [Decidable p]

@[simp] theorem bind_eq_ok {f : α → Except ε β} :
    (x >>= f) = .ok b ↔ ∃ a, x = .ok a ∧ f a = .ok b := by
  cases x with
  | error e | ok a => simp [bind, Except.bind]

theorem exists_unit {x : Except ε Unit} {q : Unit → Prop} :
    (∃ u, x = .ok u ∧ q u) ↔ x = .ok () ∧ q () :=
  ⟨fun ⟨_, h⟩ => h, fun h => ⟨_, h⟩⟩

theorem seq_eq_ok {y : Except ε β} : (x >>= fun _ => y) = .ok b ↔ x = .ok () ∧ y = .ok b := by
  rw [bind_eq_ok, exists_unit]

@[simp] theorem pure_eq_ok : (pure a : Except ε α) = .ok b ↔ a = b := by
  simp [pure, Except.pure]

@[simp] theorem throw_ne_ok : (throw e : Except ε α) = .ok a ↔ False := by
  simp

@[simp] theorem throw_bind {f : α → Except ε β} : (throw e >>= f) = throw e := rfl

@[simp] theorem ite_throw_eq_ok {x : Except ε α} :
    (if p then throw e else x) = .ok a ↔ ¬p ∧ x = .ok a := by
  by_cases hp : p
  all_goals simp [hp]

theorem forM_eq_ok {l : List α} {f : α → Except ε Unit} :
    forM l f = .ok () ↔ ∀ x ∈ l, f x = .ok () := by
  induction l with
  | nil => simp
  | cons x l ih =>
    rw [forM_cons, seq_eq_ok, forall_mem_cons, ih]

theorem mapM_eq_ok {f : α → Except ε β} :
    l.mapM f = .ok l' ↔ List.Forall₂ (fun a b => f a = .ok b) l l' := by
  induction l generalizing l' with
  | nil =>
    rw [mapM_nil, pure_eq_ok, forall₂_nil_left_iff]
    exact eq_comm
  | cons a l ih =>
    rw [mapM_cons, forall₂_cons_left_iff]
    simp only [bind_eq_ok, pure_eq_ok, ih]
    constructor
    · rintro ⟨b, hb, bs, hbs, rfl⟩
      exact ⟨b, bs, hb, hbs, rfl⟩
    · rintro ⟨b, bs, hb, hbs, rfl⟩
      exact ⟨b, hb, bs, hbs, rfl⟩

theorem forall₂_eq_and {q : β → Prop} {l : List α} :
    List.Forall₂ (fun a b => a = g b ∧ q b) l l' ↔ l = l'.map g ∧ ∀ b ∈ l', q b := by
  induction l' generalizing l with
  | nil => simp
  | cons b l' ih =>
    rw [forall₂_cons_right_iff, forall_mem_cons]
    constructor
    · rintro ⟨a, l, ⟨rfl, hb⟩, hl, rfl⟩
      obtain ⟨rfl, hl'⟩ := ih.mp hl
      exact ⟨rfl, hb, hl'⟩
    · rintro ⟨rfl, hb, hl'⟩
      exact ⟨_, _, ⟨rfl, hb⟩, ih.mpr ⟨rfl, hl'⟩, rfl⟩

theorem forall₂_zipIdx {l : List α} :
    List.Forall₂ (fun x b => r x.1 b) l.zipIdx l' ↔ List.Forall₂ r l l' := by
  rw [← forall₂_map_left_iff, zipIdx_map_fst]

theorem forall₂_comp (ht : ∀ a b c, r a b → s b c → t a c) (h : List.Forall₂ r l l')
    (h' : List.Forall₂ s l' l'') : List.Forall₂ t l l'' := by
  induction h generalizing l'' with
  | nil =>
    cases h'
    exact .nil
  | cons hr _ ih =>
    cases h' with
    | cons hs h' => exact .cons (ht _ _ _ hr hs) (ih h')

theorem exists_right_of_forall₂ (h : List.Forall₂ r l l') (ha : a ∈ l) : ∃ b ∈ l', r a b := by
  induction h with
  | nil => cases ha
  | cons hr _ ih =>
    rcases mem_cons.mp ha with rfl | ha
    · exact ⟨_, mem_cons_self, hr⟩
    · obtain ⟨b, hb, hab⟩ := ih ha
      exact ⟨b, mem_cons_of_mem _ hb, hab⟩

theorem exists_left_of_forall₂ (h : List.Forall₂ r l l') (hb : b ∈ l') : ∃ a ∈ l, r a b :=
  exists_right_of_forall₂ h.flip hb

end RioBuild.Lib.Guards
