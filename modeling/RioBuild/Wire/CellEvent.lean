import RioBuild.Drv.StorePath

namespace RioBuild.Wire

open Lib Drv List

def capacitySpot : Text := "spot".toList

def capacityOd : Text := "od".toList

def capacityOnDemand : Text := "on-demand".toList

def cellSep : Char := ':'

def epochSep : Char := '@'

inductive WireCapacity where
  | spot | onDemand
  deriving DecidableEq, Repr

namespace WireCapacity

def wireStr : WireCapacity → Text
  | spot => capacitySpot
  | onDemand => capacityOd

def parse (s : Text) : Option WireCapacity :=
  if s = capacitySpot then some spot
  else if s = capacityOd ∨ s = capacityOnDemand then some onDemand
  else none

end WireCapacity

abbrev EvidenceEpoch := UInt64

inductive CellDecodeError where
  | missingSeparator (entry : Text)
  | unknownCapacity (entry : Text)
  | badEpoch (entry : Text)
  deriving DecidableEq

structure CellEventParts where
  hwClass : Text
  capacity : WireCapacity
  epoch : Option EvidenceEpoch
  deriving DecidableEq

def rsplitOnce (sep : Char) (s : Text) : Option (Text × Text) :=
  (splitOnce sep s.reverse).map fun (back, front) => (front.reverse, back.reverse)

/-- `str::parse`: digits, after at most one plus sign. -/
def parseU64 (s : Text) : Option UInt64 :=
  let digits := if s.head? = some '+' then s.tail else s
  let value := Nat.ofDigitChars 10 digits 0
  if digits ≠ [] ∧ digits.all Char.isDigit ∧ value < 2 ^ 64 then some (.ofNat value) else none

def decodeCellEvent (s : Text) : Except CellDecodeError CellEventParts :=
  match rsplitOnce cellSep s with
  | none => .error (.missingSeparator s)
  | some (hwClass, rest) => do
    let (capacity, epoch) ← match splitOnce epochSep rest with
      | none => .ok (rest, none)
      | some (cap, raw) => match parseU64 raw with
        | none => .error (.badEpoch s)
        | some epoch => .ok (cap, some epoch)
    match WireCapacity.parse capacity with
    | none => .error (.unknownCapacity s)
    | some capacity => .ok ⟨hwClass, capacity, epoch⟩

def encodeCellEvent (hwClass : Text) (capacity : WireCapacity) : Option EvidenceEpoch → Text
  | none => hwClass ++ cellSep :: capacity.wireStr
  | some e => hwClass ++ cellSep :: (capacity.wireStr ++ epochSep :: Nat.toDigits 10 e.toNat)

theorem splitOnce_eq_none : splitOnce sep s = none ↔ sep ∉ s := by
  unfold splitOnce
  grind [dropWhile_eq_nil_iff]

theorem rsplitOnce_eq_some :
    rsplitOnce sep s = some (front, back) ↔ s = front ++ sep :: back ∧ sep ∉ back := by
  have hs : s = front ++ sep :: back ↔ s.reverse = back.reverse ++ sep :: front.reverse := by
    rw [← reverse_inj]
    simp
  rw [hs, ← mem_reverse, ← splitOnce_eq_some, rsplitOnce, Option.map_eq_some_iff]
  simp [Prod.ext_iff, reverse_eq_iff]

theorem notMem_toDigits (h : c.isDigit = false) : c ∉ Nat.toDigits 10 n := fun hc => by
  simp [Nat.isDigit_of_mem_toDigits (by decide) (by decide) hc] at h

theorem parseU64_toDigits : parseU64 (Nat.toDigits 10 e.toNat) = some e := by
  have hp : (Nat.toDigits 10 e.toNat).head? ≠ some '+' := fun hp =>
    notMem_toDigits (by decide) (mem_of_head? hp)
  have hd : (Nat.toDigits 10 e.toNat).all Char.isDigit = true := by
    rw [all_eq_true]
    exact fun c hc => Nat.isDigit_of_mem_toDigits (by decide) (by decide) hc
  rw [parseU64, if_neg hp, Nat.ofDigitChars_ten_toDigits,
    if_pos ⟨Nat.toDigits_ne_nil, hd, e.toNat_lt⟩, UInt64.ofNat_toNat]

theorem WireCapacity.parse_wireStr : parse c.wireStr = some c := by
  cases c <;> decide

theorem decodeCellEvent_encodeCellEvent : decodeCellEvent (encodeCellEvent hwClass capacity epoch) =
    .ok ⟨hwClass, capacity, epoch⟩ := by
  obtain ⟨hc, he⟩ : cellSep ∉ capacity.wireStr ∧ epochSep ∉ capacity.wireStr := by
    cases capacity <;> decide
  cases epoch with
  | none =>
    simp [encodeCellEvent, decodeCellEvent, rsplitOnce_eq_some.mpr ⟨rfl, hc⟩,
      splitOnce_eq_none.mpr he, WireCapacity.parse_wireStr]
  | some e =>
    have hr : cellSep ∉ capacity.wireStr ++ epochSep :: Nat.toDigits 10 e.toNat := by
      simp only [mem_append, mem_cons, not_or]
      exact ⟨hc, by decide, notMem_toDigits (by decide)⟩
    simp [encodeCellEvent, decodeCellEvent, rsplitOnce_eq_some.mpr ⟨rfl, hr⟩,
      splitOnce_eq_some.mpr ⟨rfl, he⟩, parseU64_toDigits, WireCapacity.parse_wireStr]

/-- After the last `:` comes the capacity, and if there is an `@` in what follows, after the first
one the epoch.  Every other input gets an error that names it. -/
theorem decodeCellEvent_exact :
    (∀ p, decodeCellEvent s = .ok p ↔ ∃ rest token,
      (s = p.hwClass ++ cellSep :: rest ∧ cellSep ∉ rest) ∧
        WireCapacity.parse token = some p.capacity ∧ match p.epoch with
          | none => token = rest ∧ epochSep ∉ rest
          | some e => ∃ raw, (rest = token ++ epochSep :: raw ∧ epochSep ∉ token) ∧
              parseU64 raw = some e) ∧
    ∀ e, decodeCellEvent s = .error e → e = .missingSeparator s ∧ cellSep ∉ s ∨
      cellSep ∈ s ∧ (e = .unknownCapacity s ∨ e = .badEpoch s) := by
  have hn : rsplitOnce cellSep s = none ↔ cellSep ∉ s := by simp [rsplitOnce, splitOnce_eq_none]
  -- with the grammar said by the two searches, the cases are those of the decoder
  simp only [← rsplitOnce_eq_some, ← splitOnce_eq_some, decodeCellEvent, bind, Except.bind]
  cases hr : rsplitOnce cellSep s with
  | none => simp [hn.mp hr]
  | some x =>
    obtain ⟨hwClass, rest⟩ := x
    have hm : cellSep ∈ s := by
      by_contra hm
      simp [hn.mpr hm] at hr
    cases he : splitOnce epochSep rest with
    | none =>
      have hne := splitOnce_eq_none.mp he
      cases hc : WireCapacity.parse rest with
      | none =>
        refine ⟨?_, by simp [he, hc, hm]⟩
        rintro ⟨hwClass', capacity', _ | e⟩ <;> simp +contextual [he, hc]
      | some capacity =>
        refine ⟨?_, by simp [he, hc]⟩
        rintro ⟨hwClass', capacity', _ | e⟩ <;> simp [he, hc, hne]
    | some y =>
      obtain ⟨token, raw⟩ := y
      have hme : epochSep ∈ rest := by
        by_contra hme
        simp [splitOnce_eq_none.mpr hme] at he
      cases hp : parseU64 raw with
      | none =>
        refine ⟨?_, by simp [he, hp, hm]⟩
        rintro ⟨hwClass', capacity', _ | e⟩ <;> simp [he, hp, hme]
      | some epoch =>
        cases hc : WireCapacity.parse token with
        | none =>
          refine ⟨?_, by simp [he, hp, hc, hm]⟩
          rintro ⟨hwClass', capacity', _ | e⟩ <;> simp [he, hp, hc, hme]
        | some capacity =>
          refine ⟨?_, by simp [he, hp, hc]⟩
          rintro ⟨hwClass', capacity', _ | e⟩ <;> simp [he, hp, hc, hme]

/-- Every event survives the wire, so no two are written alike, and what decodes does so again
from its canonical form. -/
theorem cellEvent_survives :
    (∀ hwClass capacity epoch, decodeCellEvent (encodeCellEvent hwClass capacity epoch) =
      .ok ⟨hwClass, capacity, epoch⟩) ∧
    (Function.Injective fun p : CellEventParts => encodeCellEvent p.hwClass p.capacity p.epoch) ∧
    ∀ s p, decodeCellEvent s = .ok p →
      decodeCellEvent (encodeCellEvent p.hwClass p.capacity p.epoch) = .ok p := by
  refine ⟨fun _ _ _ => decodeCellEvent_encodeCellEvent, fun p q h => ?_,
    fun _ _ _ => decodeCellEvent_encodeCellEvent⟩
  have hd := congrArg decodeCellEvent h
  simpa only [decodeCellEvent_encodeCellEvent, Except.ok.injEq] using hd

example : decodeCellEvent "a@1:b:on-demand@+07".toList =
    .ok ⟨"a@1:b".toList, .onDemand, some 7⟩ := by
  decide

end RioBuild.Wire
