import RioBuild.Lib.Cursor

namespace RioBuild.Nar

open Lib Reader

def maxNameLen : Nat := 256

def maxTargetLen : Nat := 4096

def maxNarDepth : Nat := 256

def maxDirectoryEntries : Nat := 1048576

def maxNarEntries : Nat := 1048576

def maxNarIndexBytes : Nat := 128 * 1024 * 1024

def ascii (s : String) : Bytes := s.toList.map fun c => UInt8.ofNat c.toNat

def narMagic : Bytes := ascii "nix-archive-1"

inductive IoFault
  | notFound
  | alreadyExists
  | nameTooLong
  | containsNul
  | notUtf8 (bytes : List UInt8)
  | truncated (len remaining : Nat)
  deriving DecidableEq, Repr

/-- Texts are kept as the bytes they are made from. -/
inductive NarError
  | unexpectedEof
  | invalidMagic (got : Bytes)
  | nestingTooDeep (depth : Nat)
  | unknownNodeType (got : Bytes)
  | unexpectedToken (expected got : Bytes)
  | tooManyEntries (count : Nat)
  | tooManyTotalEntries (count : Nat)
  | indexBytesTooLarge (bytes : Nat)
  | unsortedEntries (prev cur : Bytes)
  | invalidEntryName (name : Bytes)
  | nonZeroPadding (len : Nat)
  | nameTooLong (len : UInt64)
  | targetTooLong (len : UInt64)
  | contentTooLarge (len : UInt64)
  | invalidUtf8 (context : String) (offset : Nat)
  | io (fault : IoFault)
  deriving DecidableEq, Repr

def paddingLen (len : Nat) : Nat := if len % 8 = 0 then 0 else 8 - len % 8

def writeU64 (val : UInt64) : Bytes := leBytes 8 val.toNat

def padding (len : Nat) : Bytes := List.replicate (paddingLen len) 0

def writeBytes (data : Bytes) : Bytes :=
  writeU64 (UInt64.ofNat data.length) ++ (data ++ padding data.length)

def readExact (n : Nat) : Reader NarError Bytes := fun c =>
  match c.readExact n with
  | some x => .ok x
  | none => .error .unexpectedEof

def readU64 : Reader NarError UInt64 := do
  let buf ← readExact 8
  return UInt64.ofNat (leNat buf)

def consumePadding (len : Nat) : Reader NarError Unit := do
  let buf ← readExact (paddingLen len)
  if buf.any (· ≠ 0) then throw (.nonZeroPadding len)

def readPaddedBytes (len : Nat) : Reader NarError Bytes := do
  let buf ← readExact len
  consumePadding len
  return buf

def readNameBytes : Reader NarError Bytes := do
  let len ← readU64
  if len.toNat > maxNameLen then throw (.nameTooLong len)
  readPaddedBytes len.toNat

def readTargetBytes : Reader NarError Bytes := do
  let len ← readU64
  if len.toNat > maxTargetLen then throw (.targetTooLong len)
  readPaddedBytes len.toNat

def expectToken (expected : Bytes) : Reader NarError Unit := do
  let got ← readTargetBytes
  if got ≠ expected then throw (.unexpectedToken expected got)

@[simp] theorem length_padding (len : Nat) : (padding len).length = paddingLen len :=
  List.length_replicate

theorem readExact_eq_ok : (readExact n).run c = .ok (s, c1) ↔ s.length = n ∧ c.Ate s c1 := by
  rw [← Cursor.readExact_eq_some]
  change (match c.readExact n with
      | some x => Except.ok x
      | none => .error NarError.unexpectedEof) =
    .ok (s, c1) ↔ _
  cases c.readExact n with
  | none => exact iff_of_false nofun nofun
  | some x => simp

theorem readU64_eq_ok : readU64.run c = .ok (x, c1) ↔ c.Ate (writeU64 x) c1 := by
  unfold readU64 writeU64
  simp only [bind_eq_ok, pure_eq_ok, readExact_eq_ok]
  constructor
  · rintro ⟨buf, _, ⟨hl, ha⟩, rfl, rfl⟩
    have hlt : leNat buf < 2 ^ 64 := by
      have := leNat_lt buf
      rw [hl] at this
      exact this
    rw [UInt64.toNat_ofNat', Nat.mod_eq_of_lt hlt, ← hl, leBytes_leNat]
    exact ha
  · intro ha
    refine ⟨_, _, ⟨length_leBytes 8 _, ha⟩, ?_, rfl⟩
    have hlt : x.toNat < 256 ^ 8 := x.toNat_lt
    rw [leNat_leBytes, Nat.mod_eq_of_lt hlt, UInt64.ofNat_toNat]

theorem consumePadding_eq_ok :
    (consumePadding len).run c = .ok (u, c1) ↔ c.Ate (padding len) c1 := by
  have hz {buf : Bytes} (hl : buf.length = paddingLen len) :
      ¬buf.any (· ≠ 0) = true ↔ buf = padding len := by
    rw [padding, List.eq_replicate_iff]
    simp [hl]
  simp only [consumePadding, bind_eq_ok, readExact_eq_ok, ite_eq_ok,
    throw_eq_ok, pure_eq_ok, and_false, false_or]
  constructor
  · rintro ⟨buf, _, ⟨hl, ha⟩, hb, -, rfl⟩
    exact (hz hl).mp hb ▸ ha
  · intro ha
    have hl := length_padding len
    exact ⟨_, _, ⟨hl, ha⟩, (hz hl).mpr rfl, trivial, rfl⟩

theorem readPaddedBytes_eq_ok : (readPaddedBytes len).run c = .ok (s, c1) ↔
    s.length = len ∧ c.Ate (s ++ padding len) c1 := by
  simp only [readPaddedBytes, bind_eq_ok, pure_eq_ok, readExact_eq_ok,
    consumePadding_eq_ok, exists_const, Cursor.ate_append]
  constructor
  · rintro ⟨buf, c2, ⟨hl, ha⟩, c3, hp, rfl, rfl⟩
    exact ⟨hl, c2, ha, hp⟩
  · rintro ⟨hl, c2, ha, hp⟩
    exact ⟨s, c2, ⟨hl, ha⟩, c1, hp, rfl, rfl⟩

theorem readBounded_eq_ok {max : Nat} {e : UInt64 → NarError} (hm : max < 2 ^ 64) : ((do
    let len ← readU64
    if len.toNat > max then throw (e len)
    readPaddedBytes len.toNat : Reader NarError Bytes)).run c = .ok (s, c1) ↔
    s.length ≤ max ∧ c.Ate (writeBytes s) c1 := by
  simp only [writeBytes, Cursor.ate_append, bind_eq_ok, throw_bind,
    ite_eq_ok, throw_eq_ok, readU64_eq_ok, readPaddedBytes_eq_ok, and_false, false_or, not_lt]
  constructor
  · rintro ⟨len, c2, hl, hle, hleng, ha⟩
    rw [hleng, UInt64.ofNat_toNat]
    exact ⟨hle, c2, hl, ha⟩
  · rintro ⟨hleng, c2, hl, ha⟩
    have hl' : (UInt64.ofNat s.length).toNat = s.length :=
      UInt64.toNat_ofNat_of_lt' (hleng.trans_lt hm)
    exact ⟨_, c2, hl, hl'.le.trans hleng, hl'.symm, hl'.symm ▸ ha⟩

theorem readNameBytes_eq_ok :
    readNameBytes.run c = .ok (s, c1) ↔ s.length ≤ maxNameLen ∧ c.Ate (writeBytes s) c1 :=
  readBounded_eq_ok (by decide)

theorem readTargetBytes_eq_ok :
    readTargetBytes.run c = .ok (s, c1) ↔ s.length ≤ maxTargetLen ∧ c.Ate (writeBytes s) c1 :=
  readBounded_eq_ok (by decide)

namespace Frame

def token (s : String) : Bytes := writeBytes (ascii s)

def magic : Bytes := writeBytes narMagic

def nodeOpen : Bytes := token "(" ++ token "type"

def nodeClose : Bytes := token ")"

def symlink (target : Bytes) : Bytes := token "symlink" ++ (token "target" ++ writeBytes target)

def directoryOpen : Bytes := token "directory"

def entryOpen (name : Bytes) : Bytes :=
  token "entry" ++ (token "(" ++ (token "name" ++ (writeBytes name ++ token "node")))

def entryClose : Bytes := token ")"

def regularHeader (executable : Bool) (len : UInt64) : Bytes :=
  token "regular" ++ ((if executable then token "executable" ++ token "" else []) ++
    (token "contents" ++ writeU64 len))

def contentsPadding (len : UInt64) : Bytes := padding len.toNat

end Frame

end RioBuild.Nar
