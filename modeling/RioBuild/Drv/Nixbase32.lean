import RioBuild.Drv.Hash
import RioBuild.Lib.Guards

namespace RioBuild.Drv

open Lib Castore List

inductive StorePathError
  | invalidPrefix
  | tooShort
  | missingDash
  | emptyName
  | nameStartsWithDot
  | nameTooLong (len : Nat)
  | invalidNameChar (c : Char)
  | invalidBase32Char (byte : UInt8)
  | invalidBase32Padding
  deriving DecidableEq, Repr

def byteLen (s : Text) : Nat := (s.map Char.utf8Size).sum

namespace Nixbase32

def chars : Text := "0123456789abcdfghijklmnpqrsvwxyz".toList

def digitAt (input : Bytes) (i : Nat) : Nat :=
  let byteIdx := i * 5 / 8
  let bitOffset := i * 5 % 8
  let low := (input.getD byteIdx 0).toNat >>> bitOffset
  let high := if bitOffset > 3 then (input.getD (byteIdx + 1) 0).toNat <<< (8 - bitOffset) else 0
  (low ||| high) % 32

def encode (input : Bytes) : Text :=
  ((List.range ((input.length * 8 + 4) / 5)).map fun i =>
    chars.getD (digitAt input i) '0').reverse

def lastByte (c : Char) : UInt8 := (String.utf8EncodeChar c).getLastD 0

def charToDigit (c : Char) : Except StorePathError UInt8 :=
  let digit (first : Char) (value : Nat) := .ok (UInt8.ofNat (c.toNat - first.toNat + value))
  if '0' ≤ c ∧ c ≤ '9' then digit '0' 0
  else if 'a' ≤ c ∧ c ≤ 'd' then digit 'a' 10
  else if 'f' ≤ c ∧ c ≤ 'n' then digit 'f' 14
  else if 'p' ≤ c ∧ c ≤ 's' then digit 'p' 23
  else if 'v' ≤ c ∧ c ≤ 'z' then digit 'v' 27
  else .error (.invalidBase32Char (lastByte c))

def spill (out : Bytes) (j : Nat) (bits : UInt8) : Except StorePathError Bytes :=
  if j < out.length then .ok (out.modify j (· ||| bits))
  else if bits ≠ 0 then .error .invalidBase32Padding
  else .ok out

def decodeFrom : (i : Nat) → Text → Bytes → Except StorePathError Bytes
  | _, [], out => .ok out
  | i, c :: rest, out => do
    let digit ← charToDigit c
    let byteIdx := i * 5 / 8
    let bitOffset := i * 5 % 8
    let out ← spill out byteIdx (digit <<< UInt8.ofNat bitOffset)
    let out ← (if bitOffset > 3 then
      spill out (byteIdx + 1) (digit >>> UInt8.ofNat (8 - bitOffset)) else pure out)
    decodeFrom (i + 1) rest out

def decode (input : Text) : Except StorePathError Bytes :=
  decodeFrom 0 input.reverse (List.replicate (byteLen input * 5 / 8) 0)

/-- The digits of `v`, the least one first. -/
inductive Denotes : Text → Nat → Prop
  | nil : Denotes [] 0
  | cons {c : Char} {d : UInt8} {s : Text} {v : Nat} (digit : charToDigit c = .ok d)
    (rest : Denotes s v) : Denotes (c :: s) (d.toNat + 32 * v)

theorem charToDigit_getD (h : n < 32) : charToDigit (chars.getD n '0') = .ok (UInt8.ofNat n) := by
  have : ∀ n < 32, charToDigit (chars.getD n '0') = .ok (UInt8.ofNat n) := by decide
  exact this n h

theorem getD_of_charToDigit (h : charToDigit c = .ok d) :
    d.toNat < 32 ∧ chars.getD d.toNat '0' = c := by
  have ha : c.toNat < 128 := by
    have hle : c ≤ 'z' := by
      unfold charToDigit at h
      split_ifs at h with h1 h2 h3 h4 h5
      exacts [h1.2.trans (by decide), h2.2.trans (by decide), h3.2.trans (by decide),
        h4.2.trans (by decide), h5.2]
    exact lt_of_le_of_lt (UInt32.le_iff_toNat_le.mp hle) (by decide)
  have hal : ∀ n < 128, (charToDigit (Char.ofNat n)).toOption.all fun d =>
      d.toNat < 32 ∧ chars.getD d.toNat '0' = Char.ofNat n := by decide
  have hd := hal _ ha
  rw [Char.ofNat_toNat, h] at hd
  exact of_decide_eq_true hd

theorem Denotes.unique (h : Denotes s v) (h' : Denotes s v') : v = v' := by
  induction h generalizing v' with
  | nil => cases h'; rfl
  | cons digit _ ih =>
    cases h' with
    | cons digit' rest' =>
      cases digit.symm.trans digit'
      rw [ih rest']

theorem Denotes.ext (h : Denotes s v) (h' : Denotes s' v) (hl : s.length = s'.length) : s = s' := by
  induction h generalizing s' with
  | nil => exact (length_eq_zero_iff.mp hl.symm).symm
  | @cons c d s v digit _ ih =>
    generalize hw : d.toNat + 32 * v = w at h'
    cases h' with
    | nil => cases hl
    | @cons c' d' s' v' digit' rest' =>
      obtain ⟨hlt, hc⟩ := getD_of_charToDigit digit
      obtain ⟨hlt', hc'⟩ := getD_of_charToDigit digit'
      have hd : d.toNat = d'.toNat := by omega
      have hv : v = v' := by omega
      rw [← hc, ← hc', hd, ih (hv ▸ rest') (Nat.succ.inj hl)]

theorem testBit_leNat : (leNat b).testBit k = (b.getD (k / 8) 0).toNat.testBit (k % 8) := by
  induction b generalizing k with
  | nil => simp [leNat]
  | cons x b ih =>
    rw [leNat, add_comm, Nat.testBit_two_pow_mul_add _ x.toNat_lt]
    split_ifs with hk
    · rw [Nat.div_eq_of_lt hk, Nat.mod_eq_of_lt hk]
      rfl
    · rw [ih, show k / 8 = (k - 8) / 8 + 1 by omega, show k % 8 = (k - 8) % 8 by omega]
      rfl

theorem digitAt_eq : digitAt b i = leNat b / 32 ^ i % 32 := by
  refine Nat.eq_of_testBit_eq fun j => ?_
  rw [digitAt, show 32 = 2 ^ 5 from rfl, ← pow_mul, Nat.testBit_mod_two_pow,
    Nat.testBit_mod_two_pow, Nat.testBit_div_two_pow, testBit_leNat]
  by_cases hj : j < 5
  · have hz : (b.getD (i * 5 / 8) 0).toNat < 2 ^ 8 := UInt8.toNat_lt _
    simp only [hj, decide_true, Nat.testBit_or, Nat.testBit_shiftRight]
    by_cases hl : i * 5 % 8 + j < 8
    · rw [show (j + 5 * i) / 8 = i * 5 / 8 by omega, show (j + 5 * i) % 8 = i * 5 % 8 + j by omega]
      split
      · rw [Nat.testBit_shiftLeft, decide_eq_false (by omega), Bool.false_and, Bool.or_false]
      · rw [Nat.zero_testBit, Bool.or_false]
    · rw [Nat.testBit_lt_two_pow (hz.trans_le (Nat.pow_le_pow_right (by decide) (by omega))),
        if_pos (by omega), Nat.testBit_shiftLeft, decide_eq_true (by omega), Bool.true_and,
        Bool.false_or, show (j + 5 * i) / 8 = i * 5 / 8 + 1 by omega,
        show (j + 5 * i) % 8 = j - (8 - i * 5 % 8) by omega]
  · rw [decide_eq_false hj, Bool.false_and, Bool.false_and]

theorem denotes_digits (v : Nat) (i m : Nat) :
    Denotes ((List.range' i m).map fun j => chars.getD (v / 32 ^ j % 32) '0')
      (v / 32 ^ i % 32 ^ m) := by
  induction m generalizing i with
  | zero =>
    rw [pow_zero, Nat.mod_one]
    exact .nil
  | succ m ih =>
    have hd := charToDigit_getD (Nat.mod_lt (v / 32 ^ i) (by decide : 0 < 32))
    have hlt : v / 32 ^ i % 32 < 256 := by omega
    have hs : v / 32 ^ i % 32 ^ (m + 1) =
        (UInt8.ofNat (v / 32 ^ i % 32)).toNat + 32 * (v / 32 ^ (i + 1) % 32 ^ m) := by
      rw [UInt8.toNat_ofNat', Nat.mod_eq_of_lt hlt, pow_succ', Nat.mod_mul, Nat.div_div_eq_div_mul,
        ← pow_succ]
    rw [range'_succ, hs]
    exact .cons hd (ih (i + 1))

@[simp] theorem length_encode (b : Bytes) : (encode b).length = (b.length * 8 + 4) / 5 := by
  simp [encode]

theorem denotes_encode (b : Bytes) : Denotes (encode b).reverse (leNat b) := by
  have hlt : leNat b < 32 ^ ((b.length * 8 + 4) / 5) := by
    refine (leNat_lt b).trans_le ?_
    rw [show 256 = 2 ^ 8 from rfl, show 32 = 2 ^ 5 from rfl, ← pow_mul, ← pow_mul]
    exact Nat.pow_le_pow_right (by decide) (by omega)
  have hd := denotes_digits (leNat b) 0 ((b.length * 8 + 4) / 5)
  rw [pow_zero, Nat.div_one, Nat.mod_eq_of_lt hlt, ← range_eq_range'] at hd
  rw [encode, reverse_reverse]
  simpa [digitAt_eq] using hd

theorem leNat_inj (hl : b.length = out.length) (h : leNat b = leNat out) : b = out := by
  rw [← leBytes_leNat b, ← leBytes_leNat out, h, hl]

theorem exists_leNat (h : v < 256 ^ n) : ∃ b : Bytes, b.length = n ∧ leNat b = v :=
  ⟨leBytes n v, length_leBytes n v, by rw [leNat_leBytes, Nat.mod_eq_of_lt h]⟩

theorem leNat_modify (hj : j < out.length) (bits : UInt8) :
    leNat (out.modify j (· ||| bits)) = leNat out ||| bits.toNat <<< (8 * j) := by
  refine Nat.eq_of_testBit_eq fun k => ?_
  rw [Nat.testBit_or, testBit_leNat, testBit_leNat, Nat.testBit_shiftLeft]
  simp only [getD_eq_getElem?_getD, getElem?_modify]
  by_cases hk : j = k / 8
  · subst hk
    rw [getElem?_eq_getElem hj, decide_eq_true (by omega), show k - 8 * (k / 8) = k % 8 by omega]
    simp
  · have hb : (decide (k ≥ 8 * j) && bits.toNat.testBit (k - 8 * j)) = false := by
      by_cases hle : 8 * j ≤ k
      · rw [Nat.testBit_lt_two_pow
          (bits.toNat_lt.trans_le (Nat.pow_le_pow_right (by decide) (by omega))), Bool.and_false]
      · rw [decide_eq_false hle, Bool.false_and]
    rw [hb]
    simp [hk]

theorem spill_eq_ok : spill out j bits = .ok out' ↔
    out'.length = out.length ∧ leNat out' = leNat out ||| bits.toNat <<< (8 * j) := by
  unfold spill
  split
  · rename_i hj
    rw [← leNat_modify hj, Except.ok.injEq]
    constructor
    · rintro rfl
      exact ⟨length_modify .., rfl⟩
    · rintro ⟨hl, h⟩
      exact (leNat_inj (hl.trans (length_modify ..).symm) h).symm
  · rename_i hj
    by_cases hb : bits = 0
    · subst hb
      simp only [ne_eq, not_true_eq_false, if_false, Except.ok.injEq, UInt8.toNat_zero,
        Nat.zero_shiftLeft, Nat.or_zero]
      constructor
      · rintro rfl
        exact ⟨rfl, rfl⟩
      · rintro ⟨hl, h⟩
        exact (leNat_inj hl h).symm
    · rw [if_pos hb]
      refine iff_of_false nofun fun ⟨hl, h⟩ => ?_
      have hlt := leNat_lt out'
      have hp : 256 ^ out'.length ≤ bits.toNat <<< (8 * j) := by
        rw [Nat.shiftLeft_eq, pow_mul, hl]
        refine (Nat.pow_le_pow_right (by decide) (Nat.le_of_not_lt hj)).trans ?_
        exact Nat.le_mul_of_pos_left _ (pos_of_ne_zero fun h0 => hb (UInt8.toNat_inj.mp h0))
      exact absurd ((h ▸ hlt).trans_le hp) (not_lt.mpr Nat.right_le_or)

theorem shiftLeft_split (x j : Nat) (hk : k ≤ 8) :
    (x <<< k % 2 ^ 8) <<< (8 * j) ||| (x >>> (8 - k)) <<< (8 * (j + 1)) = x <<< (8 * j + k) := by
  refine Nat.eq_of_testBit_eq fun n => ?_
  simp only [Nat.testBit_or, Nat.testBit_shiftLeft, Nat.testBit_mod_two_pow, Nat.testBit_shiftRight]
  by_cases hn : 8 * (j + 1) ≤ n
  · rw [decide_eq_false (p := n - 8 * j < 8) (by omega), decide_eq_true hn,
      decide_eq_true (p := n ≥ 8 * j + k) (by omega),
      show 8 - k + (n - 8 * (j + 1)) = n - (8 * j + k) by omega]
    simp
  · rw [decide_eq_false hn, show n - (8 * j + k) = n - 8 * j - k by omega]
    by_cases hle : 8 * j + k ≤ n
    · rw [decide_eq_true (by omega), decide_eq_true (by omega),
        decide_eq_true (by omega), decide_eq_true hle]
      simp
    · rw [decide_eq_false hle]
      by_cases hj : 8 * j ≤ n
      · rw [decide_eq_false (p := n - 8 * j ≥ k) (by omega)]
        simp
      · rw [decide_eq_false hj]
        simp

theorem toNat_shift (hk : k < 8) : (d <<< UInt8.ofNat k).toNat = d.toNat <<< k % 2 ^ 8 ∧
    (d >>> UInt8.ofNat k).toNat = d.toNat >>> k := by
  have hm : (UInt8.ofNat k).toNat % 8 = k := by
    rw [UInt8.toNat_ofNat']
    omega
  rw [UInt8.toNat_shiftLeft, UInt8.toNat_shiftRight, hm]
  exact ⟨rfl, rfl⟩

theorem step_eq_ok (hd : d.toNat < 32) :
    (∃ mid, spill out (i * 5 / 8) (d <<< UInt8.ofNat (i * 5 % 8)) = .ok mid ∧
      (if i * 5 % 8 > 3 then
        spill mid (i * 5 / 8 + 1) (d >>> UInt8.ofNat (8 - i * 5 % 8)) else pure mid) = .ok out') ↔
      out'.length = out.length ∧ leNat out' = leNat out ||| d.toNat <<< (i * 5) := by
  have hof : i * 5 % 8 < 8 := Nat.mod_lt _ (by decide)
  have hs := shiftLeft_split d.toNat (i * 5 / 8) hof.le
  rw [Nat.div_add_mod] at hs
  rw [← hs, ← Nat.or_assoc, ← (toNat_shift hof).1]
  split_ifs with hh
  · rw [← (toNat_shift (by omega)).2]
    simp only [spill_eq_ok]
    constructor
    · rintro ⟨mid, ⟨hl, hm⟩, hl', ho⟩
      exact ⟨hl'.trans hl, hm ▸ ho⟩
    · rintro ⟨hl, ho⟩
      have hle := Nat.left_le_or.trans_eq ho.symm
      have hlt := hle.trans_lt (leNat_lt out')
      rw [hl] at hlt
      obtain ⟨mid, hm, hv⟩ := exists_leNat hlt
      exact ⟨mid, ⟨hm, hv⟩, hl.trans hm.symm, by rw [ho, hv]⟩
  · have hz : d.toNat >>> (8 - i * 5 % 8) = 0 := by
      rw [Nat.shiftRight_eq_div_pow]
      exact Nat.div_eq_of_lt (lt_of_lt_of_le (b := 2 ^ 5) hd
        (Nat.pow_le_pow_right (by decide) (by omega)))
    rw [hz, Nat.zero_shiftLeft]
    simp [exists_eq_right, spill_eq_ok]

theorem decodeFrom_eq_ok : decodeFrom i s out = .ok b ↔
    ∃ v, Denotes s v ∧ b.length = out.length ∧ leNat b = leNat out ||| v <<< (i * 5) := by
  induction s generalizing i out with
  | nil =>
    rw [decodeFrom, Except.ok.injEq]
    constructor
    · rintro rfl
      exact ⟨0, .nil, rfl, by rw [Nat.zero_shiftLeft, Nat.or_zero]⟩
    · rintro ⟨_, ⟨⟩, hl, h⟩
      rw [Nat.zero_shiftLeft, Nat.or_zero] at h
      exact (leNat_inj hl h).symm
  | cons c s ih =>
    -- The digit and what is behind it fill different bits.
    have hc {d : UInt8} (hd : d.toNat < 32) v :
        (d.toNat + 32 * v) <<< (i * 5) = d.toNat <<< (i * 5) ||| v <<< ((i + 1) * 5) := by
      have hs : 32 * v = v <<< 5 := by rw [Nat.shiftLeft_eq, mul_comm]
      rw [add_comm, hs, Nat.shiftLeft_add_eq_or_of_lt hd, Nat.shiftLeft_or_distrib,
        ← Nat.shiftLeft_add, Nat.or_comm, add_mul, add_comm 5]
    simp only [decodeFrom, Guards.bind_eq_ok, ih]
    constructor
    · rintro ⟨d, hdi, mid, hlo, out', hh, v, hv, hl, h⟩
      have hd := (getD_of_charToDigit hdi).1
      obtain ⟨hl', ho⟩ := (step_eq_ok hd).mp ⟨mid, hlo, hh⟩
      refine ⟨_, .cons hdi hv, hl.trans hl', ?_⟩
      rw [h, ho, hc hd, Nat.or_assoc]
    · rintro ⟨_, hsp, hl, h⟩
      cases hsp with | @cons _ d _ v hdi hv =>
      have hd := (getD_of_charToDigit hdi).1
      rw [hc hd, ← Nat.or_assoc] at h
      have hlt := (Nat.left_le_or.trans_eq h.symm).trans_lt (leNat_lt b)
      rw [hl] at hlt
      obtain ⟨out', ho, hva⟩ := exists_leNat hlt
      obtain ⟨mid, hlo, hh⟩ := (step_eq_ok hd).mpr ⟨ho, hva⟩
      exact ⟨d, hdi, mid, hlo, out', hh, v, hv, hl.trans ho.symm, by rw [h, hva]⟩

theorem Denotes.byteLen_eq (h : Denotes s v) : byteLen s = s.length := by
  induction h with
  | nil => rfl
  | @cons c d s v digit _ ih =>
    have hs : ∀ n < 32, (chars.getD n '0').utf8Size = 1 := by decide
    obtain ⟨hlt, hc⟩ := getD_of_charToDigit digit
    rw [byteLen, map_cons, sum_cons, ← hc, hs _ hlt, add_comm]
    exact congrArg (· + 1) ih

theorem byteLen_reverse : byteLen s.reverse = byteLen s := by
  rw [byteLen, map_reverse, sum_reverse, byteLen]

theorem byteLen_encode : byteLen (encode b) = (b.length * 8 + 4) / 5 := by
  rw [← byteLen_reverse, (denotes_encode b).byteLen_eq, length_reverse, length_encode]

theorem leNat_replicate : leNat (List.replicate n 0) = 0 := by
  induction n with
  | zero => rfl
  | succ n ih => simp [replicate_succ, leNat, ih]

theorem decode_eq_ok :
    decode s = .ok b ↔ Denotes s.reverse (leNat b) ∧ b.length = s.length * 5 / 8 := by
  rw [decode, decodeFrom_eq_ok, leNat_replicate, length_replicate]
  constructor
  · rintro ⟨v, hv, hl, h⟩
    rw [Nat.zero_or] at h
    have hb := hv.byteLen_eq
    rw [byteLen_reverse, length_reverse] at hb
    exact ⟨h ▸ hv, hb ▸ hl⟩
  · rintro ⟨hv, hl⟩
    have hb := hv.byteLen_eq
    rw [byteLen_reverse, length_reverse] at hb
    refine ⟨leNat b, hv, hb ▸ hl, ?_⟩
    rw [Nat.zero_or, Nat.shiftLeft_zero]

theorem decode_encode (b : Bytes) : decode (encode b) = .ok b :=
  decode_eq_ok.mpr ⟨denotes_encode b, by rw [length_encode]; omega⟩

theorem Denotes.append_zeros (h : Denotes s v) (k : Nat) :
    Denotes (s ++ List.replicate k '0') v := by
  induction h with
  | nil =>
    induction k with
    | zero => exact .nil
    | succ k ih => exact .cons (d := 0) (by decide) ih
  | cons digit _ ih => exact .cons digit ih

theorem zeros_of_decode (h : decode s = .ok b) :
    s = List.replicate (s.length - (encode b).length) '0' ++ encode b := by
  obtain ⟨hv, hl⟩ := decode_eq_ok.mp h
  refine reverse_injective (hv.ext ?_ ?_)
  · rw [reverse_append, reverse_replicate]
    exact (denotes_encode b).append_zeros _
  · simp only [length_reverse, length_append, length_replicate, length_encode]
    omega

theorem decode_eq_encode (hn : byteLen s = (8 * n + 4) / 5) (h : decode s = .ok b) :
    b.length = n ∧ encode b = s := by
  obtain ⟨hv, hle⟩ := decode_eq_ok.mp h
  have hb := hv.byteLen_eq
  rw [byteLen_reverse, length_reverse] at hb
  have hl : b.length = n := by omega
  have hs : s.length = (encode b).length := by
    rw [length_encode, hl, ← hb, hn, mul_comm]
  have hz := zeros_of_decode h
  rw [hs, Nat.sub_self] at hz
  exact ⟨hl, hz.symm⟩

theorem Denotes.mem_chars (h : Denotes s v) : ∀ c ∈ s, c ∈ chars := by
  induction h with
  | nil => exact nofun
  | @cons c d s v digit _ ih =>
    have hm : ∀ n < 32, chars.getD n '0' ∈ chars := by decide
    obtain ⟨hlt, hc⟩ := getD_of_charToDigit digit
    exact forall_mem_cons.mpr ⟨hc ▸ hm _ hlt, ih⟩

/-- Bytes are read back from their text, and a text of a length that bytes have is the text of the
bytes it is read as: two such texts are not read as the same bytes, and a text with a foreign
character, or with a number too large for its bytes, is not read. -/
theorem nixbase32_bijective : (∀ b, decode (encode b) = .ok b) ∧
      (∀ n s b, byteLen s = (8 * n + 4) / 5 → decode s = .ok b → b.length = n ∧ encode b = s) ∧
      (∀ n n' s s' b, byteLen s = (8 * n + 4) / 5 → byteLen s' = (8 * n' + 4) / 5 →
        decode s = .ok b → decode s' = .ok b → s = s') ∧
      (∀ s b, decode s = .ok b → ∀ c ∈ s, c ∈ chars) ∧
      ∀ n s v b, byteLen s = (8 * n + 4) / 5 → Denotes s.reverse v → 2 ^ (8 * n) ≤ v →
        decode s ≠ .ok b := by
  refine ⟨decode_encode, fun n s b => decode_eq_encode, fun n n' s s' b hn hn' h h' => ?_,
    fun s b h c hc => ?_, fun n s v b hn hv hl h => ?_⟩
  · rw [← (decode_eq_encode hn h).2, (decode_eq_encode hn' h').2]
  · exact (decode_eq_ok.mp h).1.mem_chars c (mem_reverse.mpr hc)
  · have hlt := leNat_lt b
    rw [hv.unique (decode_eq_ok.mp h).1, pow_mul] at hl
    rw [(decode_eq_encode hn h).1] at hlt
    exact absurd hl (not_le.mpr hlt)

end Nixbase32

end RioBuild.Drv
