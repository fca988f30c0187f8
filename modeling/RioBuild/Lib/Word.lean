import Mathlib.Algebra.Group.Int.Defs
import Mathlib.Algebra.GroupWithZero.Nat
import Mathlib.Data.List.Basic

namespace RioBuild.Lib

/-! Fixed-width counters.  The saturating operations are the standard library's
`saturating_add`, `saturating_sub` and `saturating_mul`; the plain `+` of `UInt32`
wraps, as unchecked release arithmetic does. -/

namespace U64

def saturatingAdd (a b : UInt64) : UInt64 := .ofNat (min (a.toNat + b.toNat) (2 ^ 64 - 1))

def saturatingSub (a b : UInt64) : UInt64 := .ofNat (a.toNat - b.toNat)

def saturatingMul (a b : UInt64) : UInt64 := .ofNat (min (a.toNat * b.toNat) (2 ^ 64 - 1))

@[simp] theorem saturatingAdd_zero_left : saturatingAdd 0 a = a := by
  have := a.toNat_lt
  rw [← UInt64.toNat_inj, saturatingAdd, UInt64.toNat_ofNat', UInt64.toNat_zero]
  omega

theorem toNat_saturatingMul (a b : UInt64) :
    (saturatingMul a b).toNat = min (a.toNat * b.toNat) (2 ^ 64 - 1) := by
  rw [saturatingMul, UInt64.toNat_ofNat']
  omega

end U64

namespace U32

def saturatingAdd (a b : UInt32) : UInt32 := .ofNat (min (a.toNat + b.toNat) (2 ^ 32 - 1))

def saturatingSub (a b : UInt32) : UInt32 := .ofNat (a.toNat - b.toNat)

theorem toNat_saturatingAdd (a b : UInt32) :
    (saturatingAdd a b).toNat = min (a.toNat + b.toNat) (2 ^ 32 - 1) := by
  rw [saturatingAdd, UInt32.toNat_ofNat']
  omega

theorem toNat_saturatingSub : (saturatingSub a b).toNat = a.toNat - b.toNat := by
  have := a.toNat_lt
  rw [saturatingSub, UInt32.toNat_ofNat']
  omega

theorem toNat_add_one_of_lt {a b : UInt32} (h : a < b) : (a + 1).toNat = a.toNat + 1 := by
  have := b.toNat_lt
  rw [UInt32.lt_iff_toNat_lt] at h
  rw [UInt32.toNat_add, UInt32.toNat_one]
  omega

theorem toNat_ite_lt_add_one {a cap : UInt32} (h : a.toNat ≤ cap.toNat) :
    (if a < cap then a + 1 else a).toNat = min cap.toNat (a.toNat + 1) := by
  split_ifs with hlt
  · rw [toNat_add_one_of_lt hlt]
    rw [UInt32.lt_iff_toNat_lt] at hlt
    omega
  · rw [UInt32.lt_iff_toNat_lt] at hlt
    omega

end U32

/-! Words that only count upwards are naturals, with the bound of their type written
where an addition saturates or is checked. -/

namespace Word

def u64Max : Nat := 2 ^ 64 - 1

def i64Max : Nat := 2 ^ 63 - 1

def saturatingAdd (a b : Nat) : Nat := min (a + b) u64Max

def checkedAdd (a b : Nat) : Option Nat := if a + b ≤ u64Max then some (a + b) else none

theorem saturatingAdd_eq (h : a + b ≤ u64Max) : saturatingAdd a b = a + b :=
  Nat.min_eq_left h

theorem saturatingAdd_le (a b : Nat) : saturatingAdd a b ≤ a + b := Nat.min_le_left _ _

theorem checkedAdd_eq_some : checkedAdd a b = some c ↔ a + b = c ∧ a + b ≤ u64Max := by
  unfold checkedAdd
  split <;> rename_i h
  all_goals simp [h]

theorem i64Max_add_le : i64Max + i64Max ≤ u64Max := by decide

theorem i64Max_le : i64Max ≤ u64Max := by decide

end Word

end RioBuild.Lib
