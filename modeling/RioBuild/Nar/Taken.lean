import RioBuild.Nar.Tree

namespace RioBuild.Nar

open Lib Nar.Frame List

def marker (executable : Bool) : Bytes :=
  (if executable then token "executable" ++ token "" else []) ++ token "contents"

def kindWord : NarEntryKind → String
  | .regular => "regular"
  | .directory => "directory"
  | .symlink => "symlink"

def Leaf.kind {φ : Type} : Leaf φ → NarEntryKind
  | regular _ _ => .regular
  | symlink _ => .symlink

def Leaf.body : Leaf Bytes → Bytes
  | regular contents executable => marker executable ++ (writeBytes contents ++ nodeClose)
  | symlink target => (token "target" ++ writeBytes target) ++ nodeClose

theorem padding_ofNat : padding (UInt64.ofNat n).toNat = padding n := by
  have hm : n % 2 ^ 64 % 8 = n % 8 := Nat.mod_mod_of_dvd n (by decide)
  rw [UInt64.toNat_ofNat', padding, padding, paddingLen, paddingLen, hm]

theorem Leaf.encode_eq (l : Leaf Bytes) :
    l.encode = (nodeOpen ++ token (kindWord l.kind)) ++ l.body := by
  cases l with
  | regular contents executable =>
    simp only [encode, regularHeader, contentsPadding, padding_ofNat, kind, kindWord, body, marker,
      writeBytes, append_assoc]
  | symlink target =>
    simp [encode, Frame.symlink, kind, kindWord, body]

def Node.All (p : Bytes → Prop) (q : Leaf Bytes → Prop) : Node Bytes → Prop
  | leaf l => q l
  | dir kids => kids.All p q

def Node.Shape {φ : Type} (d : Nat) : Node φ → Prop
  | leaf _ => True
  | dir kids => kids.Ordered (· < ·) ∧ kids.Within d

def Node.Narrow {φ : Type} (m : Nat) : Node φ → Prop
  | leaf _ => True
  | dir kids => kids.names.length < m ∧ kids.Narrow m

section Decide

variable {p : Bytes → Prop} {q : Leaf Bytes → Prop} [DecidablePred p] [DecidablePred q]

instance (t : Node Bytes) : Decidable (t.All p q) :=
  match t with
  | .leaf l => inferInstanceAs (Decidable (q l))
  | .dir kids => inferInstanceAs (Decidable (kids.All p q))

instance (d : Nat) (t : Node Bytes) : Decidable (t.Shape d) :=
  match t with
  | .leaf _ => .isTrue trivial
  | .dir kids => inferInstanceAs (Decidable (kids.Ordered (· < ·) ∧ kids.Within d))

instance (m : Nat) (t : Node Bytes) : Decidable (t.Narrow m) :=
  match t with
  | .leaf _ => .isTrue trivial
  | .dir kids => inferInstanceAs (Decidable (kids.names.length < m ∧ kids.Narrow m))

end Decide

def entriesFuel : Entries Bytes → Nat
  | .nil => 1
  | .leaf _ _ rest => max 1 (entriesFuel rest) + 1
  | .dir _ kids rest => max (entriesFuel kids + 1) (entriesFuel rest) + 1

def Node.fuel : Node Bytes → Nat
  | leaf _ => 1
  | dir kids => entriesFuel kids + 1

section Cons

variable {name : Bytes} {t : Node Bytes} {rest : Entries Bytes}

theorem names_cons {t : Node φ} {rest : Entries φ} :
    (t.cons name rest).names = name :: rest.names := by
  cases t <;> rfl

theorem shape_cons {t : Node φ} {rest : Entries φ} :
    (t.cons name rest).Ordered (· < ·) ∧ (t.cons name rest).Within d ↔
      (∀ m ∈ rest.names, name < m) ∧ 0 < d ∧ t.Shape (d - 1) ∧ rest.Ordered (· < ·) ∧
        rest.Within d := by
  cases t with
  | leaf l | dir kids =>
    simp only [Node.cons, Forest.Ordered, Forest.Within, Node.Shape]
    tauto

theorem all_cons : (t.cons name rest).All p q ↔ p name ∧ t.All p q ∧ rest.All p q := by
  cases t <;> rfl

theorem narrow_cons : (t.cons name rest).Narrow m ↔ t.Narrow m ∧ rest.Narrow m := by
  cases t with
  | leaf l => exact (iff_of_eq (true_and _)).symm
  | dir kids => exact and_assoc.symm

theorem entriesFuel_cons : entriesFuel (t.cons name rest) = max t.fuel (entriesFuel rest) + 1 := by
  cases t <;> rfl

theorem Node.exists_cons (f : Entries Bytes) :
    f = .nil ∨ ∃ name t rest, f = Node.cons name rest t := by
  cases f with
  | nil => exact .inl rfl
  | leaf name l rest => exact .inr ⟨name, .leaf l, rest, rfl⟩
  | dir name kids rest => exact .inr ⟨name, .dir kids, rest, rfl⟩

theorem Node.consInduction {P : Entries Bytes → Prop} (nil : P .nil)
    (cons : ∀ name t rest, P rest → P (Node.cons name rest t)) (f : Entries Bytes) : P f := by
  induction f with
  | nil => exact nil
  | leaf name l rest ih => exact cons name (.leaf l) rest ih
  | dir name kids rest _ ih => exact cons name (.dir kids) rest ih

theorem append_cons (done : Entries Bytes) :
    (done.append (t.cons name .nil)).append rest = done.append (t.cons name rest) := by
  rw [Forest.append_assoc]
  cases t <;> rfl

end Cons

theorem entriesFuel_le (f : Entries Bytes) : entriesFuel f ≤ (encodeEntries f).length + 1 := by
  have ho : nodeOpen.length = 32 := by decide
  induction f with
  | nil => exact le_refl 1
  | leaf name l rest ih =>
    have hl : nodeOpen.length ≤ l.encode.length := by
      cases l <;> simp [Leaf.encode]
    simp only [entriesFuel, encodeEntries, length_append]
    omega
  | dir name kids rest ihk ih =>
    simp only [entriesFuel, encodeEntries, length_append]
    omega

theorem fuel_le_of_ate (h : Cursor.Ate ⟨data, 0⟩ (archive t) c) : t.fuel ≤ data.length + 1 := by
  have hl := h.length
  rw [archive] at hl
  cases t with
  | leaf l => exact Nat.le_add_left 1 _
  | dir kids =>
    have ho : nodeOpen.length = 32 := by decide
    have hk := entriesFuel_le kids
    simp only [Node.fuel, Node.encode, length_append] at hl ⊢
    omega

structure Taken (p : Bytes → Prop) (q : Leaf Bytes → Prop) (fuel depth : Nat) (c : Cursor)
    (t : Node Bytes) (c₁ : Cursor) : Prop where
  depth_le : depth ≤ maxNarDepth
  all : t.All p q
  shape : t.Shape (maxNarDepth - depth)
  narrow : t.Narrow maxDirectoryEntries
  fuel : t.fuel ≤ fuel
  ate : c.Ate t.encode c₁

structure EntriesTaken (p : Bytes → Prop) (q : Leaf Bytes → Prop) (fuel depth count : Nat)
    (prev : Option Bytes) (c : Cursor) (f : Entries Bytes) (c₁ : Cursor) : Prop where
  all : f.All p q
  ordered : f.Ordered (· < ·)
  prev : ∀ p ∈ prev, ∀ m ∈ f.names, p < m
  within : f.Within (maxNarDepth - depth)
  narrow : f.Narrow maxDirectoryEntries
  few : count + f.names.length < maxDirectoryEntries
  fuel : entriesFuel f ≤ fuel
  ate : c.Ate (encodeEntries f ++ nodeClose) c₁

variable {p : Bytes → Prop} {q : Leaf Bytes → Prop} {fuel depth count : Nat} {c c₁ : Cursor}
  {prev : Option Bytes} {kids : Entries Bytes}

theorem Taken.fuel_pos (h : Taken p q fuel depth c t c₁) : 0 < fuel := by
  refine lt_of_lt_of_le ?_ h.fuel
  cases t <;> exact Nat.succ_pos _

theorem EntriesTaken.fuel_pos (h : EntriesTaken p q fuel depth count prev c kids c₁) :
    0 < fuel := by
  refine lt_of_lt_of_le ?_ h.fuel
  cases kids <;> exact Nat.succ_pos _

theorem taken_leaf : Taken p q (fuel + 1) depth c (.leaf l) c₁ ↔
    depth ≤ maxNarDepth ∧ q l ∧ c.Ate l.encode c₁ := by
  constructor
  · rintro ⟨hd, hl, -, -, -, ha⟩
    exact ⟨hd, hl, ha⟩
  · rintro ⟨hd, hl, ha⟩
    exact ⟨hd, hl, trivial, trivial, Nat.le_add_left 1 _, ha⟩

theorem taken_dir : Taken p q (fuel + 1) depth c (.dir kids) c₁ ↔
    depth ≤ maxNarDepth ∧ ∃ c2, c.Ate (nodeOpen ++ directoryOpen) c2 ∧
      EntriesTaken p q fuel depth 0 none c2 kids c₁ := by
  have he : (Node.dir kids).encode =
      (nodeOpen ++ directoryOpen) ++ (encodeEntries kids ++ nodeClose) := by
    rfl
  constructor
  · rintro ⟨hd, hal, ⟨ho, hw⟩, ⟨hfe, hn⟩, hf, ha⟩
    rw [he] at ha
    obtain ⟨c2, hop, ha⟩ := Cursor.ate_append.mp ha
    exact ⟨hd, c2, hop, hal, ho, nofun, hw, hn, by omega, Nat.le_of_succ_le_succ hf, ha⟩
  · rintro ⟨hd, c2, hop, hal, ho, -, hw, hn, hfe, hf, ha⟩
    exact ⟨hd, hal, ⟨ho, hw⟩, ⟨by omega, hn⟩, Nat.succ_le_succ hf, he ▸ hop.append ha⟩

theorem entriesTaken_nil : EntriesTaken p q (fuel + 1) depth count prev c .nil c₁ ↔
    count < maxDirectoryEntries ∧ c.Ate nodeClose c₁ := by
  constructor
  · rintro ⟨-, -, -, -, -, hf, -, ha⟩
    exact ⟨hf, ha⟩
  · rintro ⟨hf, ha⟩
    exact ⟨trivial, trivial, nofun, trivial, trivial, hf, Nat.le_add_left 1 _, ha⟩

theorem entriesTaken_cons : EntriesTaken p q (fuel + 1) depth count prev c (t.cons name rest) c₁ ↔
    count < maxDirectoryEntries ∧ ∃ c2 c3 c4, p name ∧
      (∀ p ∈ prev, p < name) ∧ c.Ate (entryOpen name) c2 ∧
      Taken p q fuel (depth + 1) c2 t c3 ∧ c3.Ate entryClose c4 ∧
      EntriesTaken p q fuel depth (count + 1) (some name) c4 rest c₁ := by
  have he : encodeEntries (t.cons name rest) ++ nodeClose =
      entryOpen name ++ (t.encode ++ (entryClose ++ (encodeEntries rest ++ nodeClose))) := by
    rw [encodeEntries_cons]
    simp
  constructor
  · rintro ⟨hal, ho, hpr, hw, hn, hf, hfu, ha⟩
    obtain ⟨hna, ht, hr⟩ := all_cons.mp hal
    obtain ⟨hlt, hpo, hs, ho, hw⟩ := shape_cons.mp ⟨ho, hw⟩
    obtain ⟨htn, hn⟩ := narrow_cons.mp hn
    rw [names_cons] at hpr hf
    rw [length_cons] at hf
    rw [entriesFuel_cons] at hfu
    rw [he] at ha
    obtain ⟨c2, hop, ha⟩ := Cursor.ate_append.mp ha
    obtain ⟨c3, hnd, ha⟩ := Cursor.ate_append.mp ha
    obtain ⟨c4, hc, ha⟩ := Cursor.ate_append.mp ha
    refine ⟨by omega, c2, c3, c4, hna, fun p hp => hpr p hp name mem_cons_self, hop,
      ⟨by omega, ht, ?_, htn, by omega, hnd⟩, hc, ⟨hr, ho, ?_, hw, hn, by omega, by omega, ha⟩⟩
    · rwa [← Nat.sub_sub]
    · rintro p ⟨⟩
      exact hlt
  · rintro ⟨-, c2, c3, c4, hna, hpr, hop, ⟨hd, ht, hs, htn, htf, hnd⟩,
      hc, ⟨hr, ho, hlt, hw, hn, hf, hfu, ha⟩⟩
    rw [← Nat.sub_sub] at hs
    obtain ⟨ho, hw⟩ :=
      shape_cons.mpr ⟨hlt name rfl, by omega, hs, ho, hw⟩
    refine ⟨all_cons.mpr ⟨hna, ht, hr⟩, ho, ?_, hw, narrow_cons.mpr ⟨htn, hn⟩, ?_, ?_, ?_⟩
    · intro p hp
      rw [names_cons]
      refine forall_mem_cons.mpr ⟨hpr p hp, fun m hm => ?_⟩
      exact (hpr p hp).trans (hlt name rfl m hm)
    · rw [names_cons, length_cons]
      omega
    · rw [entriesFuel_cons]
      omega
    · rw [he]
      exact hop.append (hnd.append (hc.append ha))

end RioBuild.Nar
