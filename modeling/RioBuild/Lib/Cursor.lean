import RioBuild.Lib.Bytes

namespace RioBuild.Lib

open List

structure Cursor where
  rest : Bytes
  pos : Nat := 0
  deriving DecidableEq, Repr

namespace Cursor

variable {c c₁ : Cursor} {a : Bytes}

def Ate (c : Cursor) (a : Bytes) (c₁ : Cursor) : Prop :=
  c.rest = a ++ c₁.rest ∧ c₁.pos = c.pos + a.length

theorem Ate.append (h : Ate c a c₁) (h' : Ate c₁ b c₂) : Ate c (a ++ b) c₂ := by
  refine ⟨?_, ?_⟩
  · rw [h.1, h'.1, append_assoc]
  · rw [h'.2, h.2, length_append, add_assoc]

theorem ate_append : Ate c (a ++ b) c2 ↔ ∃ c₁, Ate c a c₁ ∧ Ate c₁ b c2 := by
  constructor
  · rintro ⟨hr, hp⟩
    refine ⟨⟨b ++ c2.rest, c.pos + a.length⟩, ⟨?_, rfl⟩, rfl, ?_⟩
    · rw [hr, append_assoc]
    · rw [hp, length_append, add_assoc]
  · rintro ⟨c₁, h, h'⟩
    exact h.append h'

theorem Ate.length (h : Ate c a c₁) : c.rest.length = a.length + c₁.rest.length := by
  rw [h.1, length_append]

def readExact (n : Nat) (c : Cursor) : Option (Bytes × Cursor) :=
  if n ≤ c.rest.length then some (c.rest.take n, ⟨c.rest.drop n, c.pos + n⟩) else none

theorem readExact_eq_some : c.readExact n = some (a, c₁) ↔ a.length = n ∧ Ate c a c₁ := by
  unfold readExact
  split_ifs with hn
  · constructor
    · rintro ⟨rfl, rfl⟩
      have hl : (c.rest.take n).length = n := length_take_of_le hn
      exact ⟨hl, (take_append_drop n c.rest).symm, by rw [hl]⟩
    · rintro ⟨rfl, hr, hp⟩
      obtain ⟨r1, p1⟩ := c₁
      dsimp only at hr hp
      rw [hr, hp]
      simp
  · refine iff_of_false nofun ?_
    rintro ⟨rfl, h⟩
    rw [h.length] at hn
    omega

end Cursor

abbrev Reader (ε α : Type) := StateT Cursor (Except ε) α

namespace Reader

variable {ε α β : Type} {c c₁ : Cursor}

@[simp] theorem bind_eq_ok {f : α → Reader ε β} :
    (x >>= f).run c = .ok (b, c₁) ↔ ∃ a c2, x.run c = .ok (a, c2) ∧ (f a).run c2 = .ok (b, c₁) := by
  rw [StateT.run_bind]
  cases hx : x.run c with
  | error e => exact iff_of_false nofun (by simp)
  | ok y =>
    obtain ⟨a, c2⟩ := y
    constructor
    · intro h
      exact ⟨a, c2, rfl, h⟩
    · rintro ⟨_, _, ⟨⟩, h⟩
      exact h

@[simp] theorem pure_eq_ok : (pure a : Reader ε α).run c = .ok (b, c₁) ↔ a = b ∧ c = c₁ := by
  constructor
  · rintro ⟨⟩
    exact ⟨rfl, rfl⟩
  · rintro ⟨rfl, rfl⟩
    rfl

@[simp] theorem lift_eq_ok {x : Except ε α} :
    (liftM x : Reader ε α).run c = .ok (a, c₁) ↔ x = .ok a ∧ c = c₁ := by
  cases x with
  | error e => exact iff_of_false nofun nofun
  | ok b => exact pure_eq_ok.trans (and_congr_left fun _ => (Except.ok.injEq b a).symm.to_iff)

@[simp] theorem throw_eq_ok : (throw e : Reader ε α).run c = .ok (a, c₁) ↔ False :=
  iff_of_false nofun id

@[simp] theorem throw_bind {f : α → Reader ε β} : (throw e >>= f) = throw e := rfl

@[simp] theorem ite_eq_ok [Decidable p] {x y : Reader ε α} :
    (if p then x else y).run c = .ok (a, c₁) ↔
      (p ∧ x.run c = .ok (a, c₁)) ∨ (¬p ∧ y.run c = .ok (a, c₁)) := by
  by_cases hp : p
  all_goals simp [hp]

def Takes (x : Reader ε α) (a : α) (p : Bytes) : Prop :=
  ∀ c c₁, x.run c = .ok (a, c₁) ↔ c.Ate p c₁

namespace Takes

variable {k₂ : Reader ε β} {e : α → ε}

theorem only [DecidableEq α] (h : Takes x a₁ p₁) : (do
    let a ← x
    if a ≠ a₁ then throw (e a)
    k₁ : Reader ε β).run c = .ok (b, c₁) ↔ ∃ c₂, c.Ate p₁ c₂ ∧ k₁.run c₂ = .ok (b, c₁) := by
  simp only [bind_eq_ok, throw_bind, ite_eq_ok, throw_eq_ok, and_false, false_or, not_not, ← h c]
  constructor
  · rintro ⟨_, c₂, hx, rfl, hk⟩
    exact ⟨c₂, hx, hk⟩
  · rintro ⟨c₂, hx, hk⟩
    exact ⟨a₁, c₂, hx, rfl, hk⟩

theorem alone [DecidableEq α] (h : Takes x a₁ p₁) : (do
    let a ← x
    if a ≠ a₁ then throw (e a) : Reader ε Unit).run c = .ok (u, c₁) ↔ c.Ate p₁ c₁ := by
  refine h.only.trans ?_
  simp only [pure_eq_ok, true_and, exists_eq_right]

theorem choose₃ [DecidableEq α] (h1 : Takes x a1 p1) (h2 : Takes x a2 p2) (h3 : Takes x a3 p3)
    (h21 : a2 ≠ a1) (h31 : a3 ≠ a1) (h32 : a3 ≠ a2) :
    (x >>= fun a => if a = a1 then k1 else if a = a2 then k₂ else if a = a3 then k3
      else throw (e a)).run c = .ok (b, c₁) ↔
      ∃ c2, (c.Ate p1 c2 ∧ k1.run c2 = .ok (b, c₁)) ∨ (c.Ate p2 c2 ∧ k₂.run c2 = .ok (b, c₁)) ∨
        (c.Ate p3 c2 ∧ k3.run c2 = .ok (b, c₁)) := by
  simp only [bind_eq_ok, ite_eq_ok, throw_eq_ok, and_false, or_false, ← h1 c, ← h2 c, ← h3 c]
  constructor
  · rintro ⟨a, c2, hx, ⟨rfl, hk⟩ | ⟨-, ⟨rfl, hk⟩ | ⟨-, rfl, hk⟩⟩⟩
    · exact ⟨c2, .inl ⟨hx, hk⟩⟩
    · exact ⟨c2, .inr (.inl ⟨hx, hk⟩)⟩
    · exact ⟨c2, .inr (.inr ⟨hx, hk⟩)⟩
  · rintro ⟨c2, ⟨hx, hk⟩ | ⟨hx, hk⟩ | ⟨hx, hk⟩⟩
    · exact ⟨a1, c2, hx, .inl ⟨rfl, hk⟩⟩
    · exact ⟨a2, c2, hx, .inr ⟨h21, .inl ⟨rfl, hk⟩⟩⟩
    · exact ⟨a3, c2, hx, .inr ⟨h31, .inr ⟨h32, rfl, hk⟩⟩⟩

theorem choose₂ [DecidableEq α] (h1 : Takes x a1 p1) (h2 : Takes x a2 p2) (h21 : a2 ≠ a1) :
    (x >>= fun a => if a = a1 then k1 else if a = a2 then k₂ else throw (e a)).run c = .ok (b, c₁) ↔
      ∃ c2, (c.Ate p1 c2 ∧ k1.run c2 = .ok (b, c₁)) ∨ (c.Ate p2 c2 ∧ k₂.run c2 = .ok (b, c₁)) := by
  simp only [bind_eq_ok, ite_eq_ok, throw_eq_ok, and_false, or_false, ← h1 c, ← h2 c]
  constructor
  · rintro ⟨a, c2, hx, ⟨rfl, hk⟩ | ⟨-, rfl, hk⟩⟩
    · exact ⟨c2, .inl ⟨hx, hk⟩⟩
    · exact ⟨c2, .inr ⟨hx, hk⟩⟩
  · rintro ⟨c2, ⟨hx, hk⟩ | ⟨hx, hk⟩⟩
    · exact ⟨a1, c2, hx, .inl ⟨rfl, hk⟩⟩
    · exact ⟨a2, c2, hx, .inr ⟨h21, rfl, hk⟩⟩

end Takes

end Reader

end RioBuild.Lib
