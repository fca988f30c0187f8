import Mathlib.Data.List.Forall2

/-! Readers of text.  A reader is described by the texts it reads a value from; it then reads
nothing else, and what follows does not matter. -/

namespace RioBuild.Lib

abbrev Text := List Char

abbrev TextReader (ε α : Type) := StateT Text (Except ε) α

variable {ε : Type}

/-- From exactly the texts `L a` the value `a` is read, whatever follows. -/
def Reads (x : TextReader ε α) (L : α → Text → Prop) : Prop :=
  ∀ s a rest, x.run s = .ok (a, rest) ↔ ∃ p, L a p ∧ s = p ++ rest

namespace Reads

theorem congr (h : Reads x L) (hLM : ∀ a p, L a p ↔ M a p) : Reads x M := by
  intro s a rest
  rw [h]
  exact exists_congr fun p => and_congr_left fun _ => hLM a p

theorem pure (a : α) : Reads (Pure.pure a : TextReader ε α) fun b p => b = a ∧ p = [] := by
  intro s b rest
  constructor
  · rintro ⟨⟩
    exact ⟨[], ⟨rfl, rfl⟩, rfl⟩
  · rintro ⟨p, ⟨rfl, rfl⟩, rfl⟩
    rfl

theorem bind {f : α → TextReader ε β} {N : α → β → Text → Prop} (h : Reads x L)
    (hf : ∀ a, Reads (f a) (N a)) :
    Reads (x >>= f) fun b p => ∃ a p₁ p₂, L a p₁ ∧ N a b p₂ ∧ p = p₁ ++ p₂ := by
  intro s b rest
  rw [StateT.run_bind]
  constructor
  · intro hr
    cases hx : x.run s with
    | error e =>
      rw [hx] at hr
      cases hr
    | ok y =>
      obtain ⟨a, s₁⟩ := y
      rw [hx] at hr
      obtain ⟨p₁, hp₁, rfl⟩ := (h _ _ _).mp hx
      obtain ⟨p₂, hp₂, rfl⟩ := (hf a _ _ _).mp hr
      exact ⟨p₁ ++ p₂, ⟨a, p₁, p₂, hp₁, hp₂, rfl⟩, (List.append_assoc _ _ _).symm⟩
  · rintro ⟨p, ⟨a, p₁, p₂, hp₁, hp₂, rfl⟩, rfl⟩
    have hx : x.run (p₁ ++ p₂ ++ rest) = .ok (a, p₂ ++ rest) :=
      (h _ _ _).mpr ⟨p₁, hp₁, List.append_assoc _ _ _⟩
    rw [hx]
    exact (hf a _ _ _).mpr ⟨p₂, hp₂, rfl⟩

theorem unique (h : Reads x L) (hp : L a p) (hq : L b q) (heq : p ++ r = q ++ r') :
    a = b ∧ p = q := by
  have hr : x.run (p ++ r) = .ok (a, r) := (h _ _ _).mpr ⟨p, hp, rfl⟩
  have hr' : x.run (q ++ r') = .ok (b, r') := (h _ _ _).mpr ⟨q, hq, rfl⟩
  rw [heq, hr'] at hr
  cases hr
  exact ⟨rfl, List.append_cancel_right heq⟩

end Reads

end RioBuild.Lib
