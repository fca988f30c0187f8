import RioBuild.Drv.StorePath

namespace RioBuild.Drv

open Lib Nixbase32

inductive HashAlgo
  | sha256
  | sha512
  | sha1
  deriving DecidableEq, Repr

/-- The texts of the messages are left out, what they quote is not. -/
inductive HashError
  | unknownAlgorithm (s : Text)
  | invalidFormat (s : Text)
  | invalidNixbase32 (e : StorePathError)
  | wrongDigestLength (algo : Text) (expected got : Nat)
  deriving DecidableEq

namespace HashAlgo

def digestLen : HashAlgo → Nat
  | sha256 => 32
  | sha512 => 64
  | sha1 => 20

def asStr : HashAlgo → Text
  | sha256 => "sha256".toList
  | sha512 => "sha512".toList
  | sha1 => "sha1".toList

def fromStr (s : Text) : Except HashError HashAlgo :=
  let lower := s.map Char.toLower
  if lower = asStr sha256 then .ok sha256
  else if lower = asStr sha512 then .ok sha512
  else if lower = asStr sha1 then .ok sha1
  else .error (.unknownAlgorithm s)

theorem fromStr_eq_ok : fromStr s = .ok algo ↔ s.map Char.toLower = algo.asStr := by
  have hd : asStr sha512 ≠ asStr sha256 ∧ asStr sha1 ≠ asStr sha256 ∧
      asStr sha1 ≠ asStr sha512 := by
    decide
  unfold fromStr
  generalize s.map Char.toLower = lower
  constructor
  · intro h
    dsimp only at h
    split_ifs at h with h1 h2 h3
    all_goals cases h
    exacts [h1, h2, h3]
  · rintro rfl
    cases algo with
    | sha256 => rfl
    | sha512 | sha1 => simp [hd]

theorem colon_notMem {s : Text} {algo : HashAlgo} (h : s.map Char.toLower = algo.asStr) :
    ':' ∉ s := by
  have hn : ∀ algo : HashAlgo, ':' ∉ algo.asStr := by
    rintro (_ | _ | _)
    all_goals decide
  exact fun hm => hn algo (h ▸ List.mem_map_of_mem hm)

theorem map_toLower_asStr (algo : HashAlgo) : algo.asStr.map Char.toLower = algo.asStr := by
  cases algo <;> decide

end HashAlgo

structure NixHash where
  algo : HashAlgo
  digest : Bytes
  length_eq : digest.length = algo.digestLen
  deriving DecidableEq

namespace NixHash

def new (algo : HashAlgo) (digest : Bytes) : Except HashError NixHash :=
  if h : digest.length = algo.digestLen then .ok ⟨algo, digest, h⟩
  else .error (.wrongDigestLength algo.asStr algo.digestLen digest.length)

def parseColon (s : Text) : Except HashError NixHash :=
  match splitOnce ':' s with
  | none => .error (.invalidFormat s)
  | some (algoStr, digestStr) => do
    let algo ← HashAlgo.fromStr algoStr
    let digest ← (decode digestStr).mapError .invalidNixbase32
    new algo digest

def toColon (h : NixHash) : Text := h.algo.asStr ++ ':' :: encode h.digest

variable {hash : NixHash}

theorem new_eq_ok {algo : HashAlgo} {digest : Bytes} :
    new algo digest = .ok hash ↔ algo = hash.algo ∧ digest = hash.digest := by
  unfold new
  split
  · rw [Except.ok.injEq]
    constructor
    · rintro rfl
      exact ⟨rfl, rfl⟩
    · rintro ⟨rfl, rfl⟩
      rfl
  · rename_i hl
    refine iff_of_false nofun ?_
    rintro ⟨rfl, rfl⟩
    exact hl hash.length_eq

theorem mapError_eq_ok {x : Except ε α} : x.mapError f = .ok a ↔ x = .ok a := by
  cases x <;> simp [Except.mapError]

theorem length_of_decode (h : decode digits = .ok hash.digest) :
    digits.length = (encode hash.digest).length ∨
      hash.algo = .sha1 ∧ digits.length = (encode hash.digest).length + 1 := by
  have hl := (decode_eq_ok.mp h).2
  rw [length_encode, hash.length_eq]
  rw [hash.length_eq] at hl
  cases ha : hash.algo with
  | sha256 | sha512 =>
    rw [ha, HashAlgo.digestLen] at hl
    simp only [HashAlgo.digestLen]
    omega
  | sha1 =>
    rw [ha, HashAlgo.digestLen] at hl
    simp only [HashAlgo.digestLen, true_and]
    omega

theorem decode_digest : decode digits = .ok hash.digest ↔
    ∃ zeros, digits = zeros ++ encode hash.digest ∧
      (zeros = [] ∨ hash.algo = .sha1 ∧ zeros = ['0']) := by
  constructor
  · intro h
    refine ⟨_, zeros_of_decode h, ?_⟩
    rcases length_of_decode h with hl | ⟨ha, hl⟩
    · rw [hl, Nat.sub_self]
      exact .inl rfl
    · rw [hl, Nat.add_sub_cancel_left]
      exact .inr ⟨ha, rfl⟩
  · rintro ⟨_, rfl, rfl | ⟨ha, rfl⟩⟩
    · exact decode_encode hash.digest
    · have hd := hash.length_eq
      rw [ha] at hd
      refine decode_eq_ok.mpr ⟨?_, ?_⟩
      · rw [List.reverse_append]
        exact (denotes_encode hash.digest).append_zeros 1
      · rw [List.length_append, length_encode, hd]
        rfl

theorem parseColon_eq_ok : parseColon s = .ok hash ↔
    ∃ name zeros, s = name ++ ':' :: (zeros ++ encode hash.digest) ∧
      name.map Char.toLower = hash.algo.asStr ∧
      (zeros = [] ∨ hash.algo = .sha1 ∧ zeros = ['0']) := by
  unfold parseColon
  constructor
  · intro h
    split at h
    · cases h
    · rename_i name digits hsp
      simp only [Guards.bind_eq_ok, mapError_eq_ok, HashAlgo.fromStr_eq_ok, new_eq_ok] at h
      obtain ⟨_, hn, _, hd, rfl, rfl⟩ := h
      obtain ⟨zeros, rfl, hz⟩ := decode_digest.mp hd
      exact ⟨name, zeros, (splitOnce_eq_some.mp hsp).1, hn, hz⟩
  · rintro ⟨name, zeros, hs, hn, hz⟩
    rw [splitOnce_eq_some.mpr ⟨hs, HashAlgo.colon_notMem hn⟩]
    simp only [Guards.bind_eq_ok, mapError_eq_ok, HashAlgo.fromStr_eq_ok, new_eq_ok]
    exact ⟨_, hn, _, decode_digest.mpr ⟨zeros, rfl, hz⟩, rfl, rfl⟩

/-- Hashes are read from their text with the name in any case and, for the one algorithm whose
digits leave room for it, with one more zero; only their own text is printed. -/
theorem parseColon_spelling (s : Text) (hash : NixHash) : (parseColon s = .ok hash ↔
      ∃ name zeros, s = name ++ ':' :: (zeros ++ encode hash.digest) ∧
        name.map Char.toLower = hash.algo.asStr ∧
        (zeros = [] ∨ hash.algo = .sha1 ∧ zeros = ['0'])) ∧
      (parseColon s = .ok hash →
        (hash.toColon = s ↔ ∃ digits, s = hash.algo.asStr ++ ':' :: digits ∧
          byteLen digits = (8 * hash.algo.digestLen + 4) / 5)) := by
  refine ⟨parseColon_eq_ok, fun h => ?_⟩
  obtain ⟨name, zeros, hp, hn, hz⟩ := parseColon_eq_ok.mp h
  have hsz : byteLen (encode hash.digest) = (8 * hash.algo.digestLen + 4) / 5 := by
    rw [byteLen_encode, hash.length_eq, mul_comm]
  constructor
  · intro hc
    exact ⟨encode hash.digest, hc.symm, hsz⟩
  · rintro ⟨digits, hs, hd⟩
    have hsp := splitOnce_eq_some.mpr ⟨hp, HashAlgo.colon_notMem hn⟩
    rw [splitOnce_eq_some.mpr ⟨hs, HashAlgo.colon_notMem hash.algo.map_toLower_asStr⟩] at hsp
    cases hsp
    rcases hz with rfl | ⟨-, rfl⟩
    · exact hp.symm
    · change 1 + byteLen (encode hash.digest) = _ at hd
      omega

/-- A digest of the shorter kind with one more zero in front. -/
theorem parseColon_accepts_zero :
    ∃ hash, parseColon ("sha1:".toList ++ List.replicate 33 '0') = .ok hash ∧
      hash.toColon ≠ "sha1:".toList ++ List.replicate 33 '0' := by
  refine ⟨⟨.sha1, List.replicate 20 0, rfl⟩, ?_, ?_⟩
  all_goals decide +kernel

end NixHash

end RioBuild.Drv
