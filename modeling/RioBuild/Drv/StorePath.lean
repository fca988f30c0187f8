import Mathlib.Data.List.TakeWhile
import RioBuild.Drv.Nixbase32

namespace RioBuild.Drv

open Lib Castore List Nixbase32

def hashChars : Nat := 32

def maxNameLen : Nat := 211

def storeDir : Text := "/nix/store".toList

structure StorePath where
  hash : Bytes
  name : Text
  full : Text
  deriving DecidableEq

def isValidNameChar (c : Char) : Bool :=
  c.isAlphanum || c ∈ ['+', '-', '.', '_', '?', '=']

def validateName (name : Text) : Except StorePathError Unit :=
  if name = [] then .error .emptyName
  else if byteLen name > maxNameLen then .error (.nameTooLong (byteLen name))
  else if name ∈ [['.'], ['.', '.']] ∨ ['.', '-'] <+: name ∨ ['.', '.', '-'] <+: name then
    .error .nameStartsWithDot
  else match name.find? fun c => !isValidNameChar c with
    | some c => .error (.invalidNameChar c)
    | none => .ok ()

/-- `split_at`, unless it would cut a character in two. -/
def splitAtByte : Nat → Text → Option (Text × Text)
  | 0, s => some ([], s)
  | _ + 1, [] => none
  | n + 1, c :: s =>
    if c.utf8Size ≤ n + 1 then
      (splitAtByte (n + 1 - c.utf8Size) s).map fun (front, back) => (c :: front, back)
    else none

def StorePath.parse (s : Text) : Except StorePathError StorePath :=
  match (storeDir ++ ['/']).isPrefixOf s, splitAtByte hashChars (s.drop (storeDir.length + 1)) with
  | false, _ => .error .invalidPrefix
  | true, none | true, some (_, []) => .error .tooShort
  | true, some (hashStr, '-' :: name) => do
    validateName name
    let hash ← decode hashStr
    return ⟨hash, name, s⟩
  | true, some _ => .error .missingDash

def StorePath.hashPart (p : StorePath) : Text := encode p.hash

def StorePath.basename (p : StorePath) : Text := p.full.drop (storeDir.length + 1)

def outputPathName (drvName outputName : Text) : Text :=
  if outputName = "out".toList then drvName else drvName ++ '-' :: outputName

section

variable (sha256 : Text → Digest)

def compress (digest : Digest) : Bytes :=
  List.zipWith (· ^^^ ·) (digest.1.take 20) (digest.1.drop 20 ++ List.replicate 8 0)

def StorePath.fromFingerprint (name fingerprint : Text) : Except StorePathError StorePath := do
  validateName name
  let hash := compress (sha256 fingerprint)
  return ⟨hash, name, storeDir ++ '/' :: encode hash ++ '-' :: name⟩

def StorePath.makeOutput (outputName : Text) (drvHash : Digest) (drvName : Text) :
    Except StorePathError StorePath :=
  let name := outputPathName drvName outputName
  fromFingerprint sha256 name ("output:".toList ++ outputName ++ ":sha256:".toList ++
    hexEncode drvHash ++ ':' :: storeDir ++ ':' :: name)

end

/-- `split_once`. -/
def splitOnce (sep : Char) (s : Text) : Option (Text × Text) :=
  match s.dropWhile (· ≠ sep) with
  | [] => none
  | _ :: rest => some (s.takeWhile (· ≠ sep), rest)

def basename (s : Text) : Option Text :=
  if (storeDir ++ ['/']).isPrefixOf s then some (s.drop (storeDir.length + 1)) else none

def drvLogHash (s : Text) : Text :=
  match StorePath.parse s with
  | .ok sp => sp.hashPart
  | .error _ =>
    let base := (basename s).getD s
    ((splitOnce '-' base).map Prod.fst).getD base

theorem valid_of_validateName (h : validateName name = .ok ()) :
    ∀ c ∈ name, isValidNameChar c = true := by
  unfold validateName at h
  split_ifs at h
  split at h
  · cases h
  · rename_i hf
    simpa using find?_eq_none.mp hf

theorem splitAtByte_eq_some :
    splitAtByte n s = some (front, back) ↔ s = front ++ back ∧ byteLen front = n := by
  have hn {front : Text} (h : byteLen front = 0) : front = [] := by
    cases front with
    | nil => rfl
    | cons c front =>
      have := c.utf8Size_pos
      simp [byteLen] at h
      omega
  fun_induction splitAtByte n s generalizing front back with
  | case1 s =>
    constructor
    · rintro ⟨⟩
      exact ⟨rfl, rfl⟩
    · rintro ⟨rfl, h⟩
      rw [hn h, nil_append]
  | case2 n =>
    refine iff_of_false (by simp) ?_
    rintro ⟨hs, h⟩
    rw [(append_eq_nil_iff.mp hs.symm).1] at h
    cases h
  | case3 n c s hsz ih =>
    simp only [Option.map_eq_some_iff, Prod.exists, Prod.mk.injEq, ih]
    constructor
    · rintro ⟨f, _, ⟨rfl, hf⟩, rfl, rfl⟩
      refine ⟨rfl, ?_⟩
      rw [byteLen, map_cons, sum_cons, ← byteLen]
      omega
    · rintro ⟨hs, hfr⟩
      cases front with
      | nil => cases hfr
      | cons c' f =>
        cases hs
        rw [byteLen, map_cons, sum_cons, ← byteLen] at hfr
        exact ⟨f, back, ⟨rfl, by omega⟩, rfl, rfl⟩
  | case4 n c s hsz =>
    refine iff_of_false (by simp) ?_
    rintro ⟨hs, hfr⟩
    cases front with
    | nil => cases hfr
    | cons c' f =>
      cases hs
      rw [byteLen, map_cons, sum_cons] at hfr
      omega

theorem StorePath.parse_eq_ok : StorePath.parse s = .ok p ↔
    s = storeDir ++ '/' :: (p.hashPart ++ '-' :: p.name) ∧ p.hash.length = 20 ∧
      validateName p.name = .ok () ∧ p.full = s := by
  have hp {rest : Text} : storeDir ++ ['/'] ++ rest = storeDir ++ '/' :: rest := by
    rfl
  constructor
  · intro h
    unfold parse at h
    split at h
    · cases h
    · cases h
    · cases h
    · rename_i hash name hpr hsp
      obtain ⟨_, hn, h⟩ := Guards.bind_eq_ok.mp h
      obtain ⟨bytes, hd, h⟩ := Guards.bind_eq_ok.mp h
      cases h
      obtain ⟨rest, rfl⟩ := isPrefixOf_iff_prefix.mp hpr
      obtain ⟨hr, hsz⟩ := splitAtByte_eq_some.mp hsp
      change rest = hash ++ '-' :: name at hr
      obtain ⟨hl, he⟩ := decode_eq_encode (n := 20) hsz hd
      exact ⟨by rw [hr, hp, hashPart, he], hl, hn, rfl⟩
    · cases h
  · rintro ⟨hs, hl, hn, hf⟩
    have hsz : byteLen p.hashPart = hashChars := by
      rw [hashPart, byteLen_encode, hl]
      rfl
    have hdro : s.drop (storeDir.length + 1) = p.hashPart ++ '-' :: p.name := by
      rw [hs]
      rfl
    unfold parse
    rw [ isPrefixOf_iff_prefix.mpr ⟨_, hp.trans hs.symm⟩, splitAtByte_eq_some.mpr ⟨hdro, hsz⟩]
    refine Guards.bind_eq_ok.mpr ⟨_, hn, Guards.bind_eq_ok.mpr ⟨p.hash, decode_encode p.hash, ?_⟩⟩
    rw [← hf]
    rfl

theorem mem_chars_of_mem_hashPart {p : StorePath} (h : c ∈ p.hashPart) : c ∈ chars :=
  (denotes_encode p.hash).mem_chars c (mem_reverse.mpr h)

theorem splitOnce_eq_some :
    splitOnce sep s = some (front, back) ↔ s = front ++ sep :: back ∧ sep ∉ front := by
  constructor
  · intro h
    unfold splitOnce at h
    split at h
    · cases h
    · rename_i c rest hd
      cases h
      have hs : c = sep := by
        have := head?_dropWhile_not (fun x => decide (x ≠ sep)) s
        rw [hd] at this
        simpa using this
      refine ⟨?_, fun hm => absurd (mem_takeWhile_imp hm) (by simp)⟩
      rw [hs] at hd
      rw [← hd, takeWhile_append_dropWhile]
  · rintro ⟨rfl, hf⟩
    have hp : ∀ c ∈ front, decide (c ≠ sep) = true :=
      fun c hc => decide_eq_true fun heq => hf (heq ▸ hc)
    have hd : (sep :: back).dropWhile (· ≠ sep) = sep :: back := by simp
    have ht : (sep :: back).takeWhile (· ≠ sep) = [] := by simp
    rw [splitOnce, dropWhile_append_of_pos hp, hd, takeWhile_append_of_pos hp, ht, append_nil]

theorem fst_splitOnce (sep : Char) (s : Text) :
    ((splitOnce sep s).map Prod.fst).getD s = s.takeWhile (· ≠ sep) := by
  unfold splitOnce
  split
  · rename_i h
    conv_lhs => rw [Option.map_none, Option.getD_none, ← takeWhile_append_dropWhile
      (l := s), h, append_nil]
  · rfl

theorem basename_append : basename (storeDir ++ '/' :: s) = some s := by
  rfl

theorem basename_eq_none (h : ¬storeDir ++ ['/'] <+: s) : basename s = none := by
  rw [basename, if_neg fun hp => h ( isPrefixOf_iff_prefix.mp hp)]

theorem drvLogHash_of_error (h : ∀ p, StorePath.parse s ≠ .ok p) :
    drvLogHash s = ((basename s).getD s).takeWhile (· ≠ '-') := by
  unfold drvLogHash
  split
  · rename_i p hp
    exact absurd hp (h p)
  · exact fst_splitOnce '-' _

theorem drvLogHash_of_notMem (h : '-' ∉ s) : drvLogHash s = (basename s).getD s := by
  have hb : '-' ∉ (basename s).getD s := by
    unfold basename
    split
    · exact fun hm => h (mem_of_mem_drop hm)
    · exact h
  rw [drvLogHash_of_error fun p hp => h ?_]
  · refine takeWhile_eq_self_iff.mpr fun c hc => ?_
    exact decide_eq_true fun heq => hb (heq ▸ hc)
  · rw [(StorePath.parse_eq_ok.mp hp).1]
    simp

theorem drvLogHash_eq_self (h : '-' ∉ s) : drvLogHash s = s ↔ ¬storeDir ++ ['/'] <+: s := by
  rw [drvLogHash_of_notMem h]
  constructor
  · intro hs hp
    obtain ⟨t, rfl⟩ := hp
    rw [append_assoc, singleton_append, basename_append, Option.getD_some] at hs
    have hl := congrArg length hs
    rw [length_append, length_cons] at hl
    omega
  · intro hp
    rw [basename_eq_none hp, Option.getD_none]

theorem StorePath.not_storeDir {p : StorePath} (hl : p.hash.length = 20) (rest : Text) :
    ¬storeDir ++ ['/'] <+: p.hashPart ++ rest := by
  obtain ⟨c, hash, hh⟩ : ∃ c hash, p.hashPart = c :: hash := by
    refine exists_cons_of_length_pos ?_
    rw [hashPart, length_encode, hl]
    decide
  rw [hh]
  rintro ⟨t, ht⟩
  have hc : '/' = c := (cons.inj ht).1
  have hm : c ∈ p.hashPart := hh ▸ mem_cons_self
  exact absurd (mem_chars_of_mem_hashPart (hc ▸ hm)) (by decide)

theorem drvLogHash_forms (h : StorePath.parse s = .ok p) :
    drvLogHash s = p.hashPart ∧ drvLogHash p.basename = p.hashPart ∧
      drvLogHash p.hashPart = p.hashPart := by
  obtain ⟨hs, hl, -, hf⟩ := StorePath.parse_eq_ok.mp h
  have hp := StorePath.not_storeDir hl
  have hd : '-' ∉ p.hashPart := fun hm =>
    absurd (mem_chars_of_mem_hashPart hm) (by decide)
  have hb : p.basename = p.hashPart ++ '-' :: p.name := by
    rw [StorePath.basename, hf, hs]
    rfl
  refine ⟨by rw [drvLogHash, h], ?_, (drvLogHash_eq_self hd).mpr ?_⟩
  · rw [hb, drvLogHash_of_error, basename_eq_none (hp _), Option.getD_none, takeWhile_append_of_pos]
    · simp
    · exact fun c hc => decide_eq_true fun heq : c = '-' => hd (heq ▸ hc)
    · intro q hq
      refine hp ('-' :: p.name) ⟨q.hashPart ++ '-' :: q.name, ?_⟩
      rw [(StorePath.parse_eq_ok.mp hq).1]
      rfl
  · have hn := hp []
    rwa [append_nil] at hn

/-- The key of a key is that key, except where the store directory stands twice in front; the three
forms of a path have the same key. -/
theorem drvLogHash_idempotent_iff (s : Text) :
    (drvLogHash (drvLogHash s) = drvLogHash s ↔ ¬storeDir ++ '/' :: (storeDir ++ ['/']) <+: s) ∧
      ∀ p, StorePath.parse s = .ok p → drvLogHash s = p.hashPart ∧
        drvLogHash p.basename = p.hashPart ∧ drvLogHash p.hashPart = p.hashPart := by
  refine ⟨?_, fun p => drvLogHash_forms⟩
  have ht t : storeDir ++ '/' :: (storeDir ++ ['/']) <+: storeDir ++ '/' :: t ↔
      storeDir ++ ['/'] <+: t := by
    rw [prefix_append_right_inj, cons_prefix_cons]
    exact and_iff_right rfl
  by_cases ho : ∃ p, StorePath.parse s = .ok p
  · obtain ⟨p, hp⟩ := ho
    obtain ⟨hs, hl, -⟩ := StorePath.parse_eq_ok.mp hp
    obtain ⟨hk, -, hh⟩ := drvLogHash_forms hp
    refine iff_of_true (by rw [hk, hh]) ?_
    rw [hs, ht]
    exact StorePath.not_storeDir hl _
  · have hk := drvLogHash_of_error fun p hp => ho ⟨p, hp⟩
    have hd : '-' ∉ drvLogHash s := by
      intro hm
      rw [hk] at hm
      exact absurd (mem_takeWhile_imp hm) (by decide)
    rw [drvLogHash_eq_self hd, hk, not_iff_not]
    have hta base : storeDir ++ ['/'] <+: base.takeWhile (· ≠ '-') ↔
        storeDir ++ ['/'] <+: base := by
      refine ⟨fun h => h.trans ( takeWhile_prefix _), ?_⟩
      rintro ⟨t, rfl⟩
      exact prefix_append _ _
    rw [hta]
    by_cases hpr : storeDir ++ ['/'] <+: s
    · obtain ⟨t, rfl⟩ := hpr
      rw [append_assoc, singleton_append, basename_append, ht, Option.getD_some]
    · rw [basename_eq_none hpr]
      refine iff_of_false hpr fun h => hpr (.trans ?_ h)
      exact ⟨storeDir ++ ['/'], by rw [append_assoc]; rfl⟩

theorem drvLogHash_keeps_storeDir : drvLogHash (drvLogHash "/nix/store//nix/store/x".toList) ≠
      drvLogHash "/nix/store//nix/store/x".toList := by
  decide +kernel

end RioBuild.Drv
