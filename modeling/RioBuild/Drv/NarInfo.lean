import RioBuild.Drv.StorePath

/-! What the signatures of a narinfo cover.  The signature scheme is any predicate on the signed
text. -/

namespace RioBuild.Drv

open Lib Castore List

/-- `dedup` of neighbours. -/
def dropRepeats : List Text → List Text
  | [] => []
  | [s] => [s]
  | s :: t :: l => if s = t then dropRepeats (t :: l) else s :: dropRepeats (t :: l)

def sortedRefs (refs : List Text) : List Text := dropRepeats (refs.insertionSort (· ≤ ·))

def signedText (storePath narHash : Text) (narSize : Nat) (fullRefs : List Text) : Text :=
  [';'].intercalate [['1'], storePath, narHash, Nat.toDigits 10 narSize,
    [','].intercalate (sortedRefs fullRefs)]

def hashColon (narHash : Digest) : Text := "sha256:".toList ++ Nixbase32.encode narHash.1

def fingerprint (storePath : Text) (narHash : Digest) (narSize : Nat) (references : List Text) :
    Text :=
  signedText storePath (hashColon narHash) narSize references

structure NarInfo where
  storePath : Text
  narHash : Text
  narSize : Nat
  references : List Text
  sigs : List Text

namespace NarInfo

def storeDir (n : NarInfo) : Option Text :=
  if '/' ∈ n.storePath then some (n.storePath.reverse.dropWhile (· ≠ '/')).reverse else none

def reconstructed (n : NarInfo) : Option Text :=
  n.storeDir.map fun dir =>
    signedText n.storePath n.narHash n.narSize (n.references.map (dir ++ ·))

/-- Public keys and signatures are read from their texts by `parseKey` and `verify`, which fail on
what is malformed. -/
def verifySig {Key : Type} (parseKey : Text → Option Key) (verify : Key → Text → Text → Bool)
    (n : NarInfo) (trustedKeys : List Text) : Option Text :=
  let keys := trustedKeys.filterMap fun k =>
    (splitOnce ':' k).bind fun (name, pk) => (parseKey pk).map (name, ·)
  if keys.isEmpty then none
  else n.reconstructed.bind fun fp => n.sigs.findSome? fun sig =>
    (splitOnce ':' sig).bind fun (sigName, sigText) =>
      (keys.find? (·.1 = sigName)).bind fun (_, vk) =>
        if verify vk fp sigText then some sigName else none

end NarInfo

theorem mem_dropRepeats : s ∈ dropRepeats l ↔ s ∈ l := by
  fun_induction dropRepeats l with
  | case1 | case2 => rfl
  | case3 t l ih => rw [ih]; simp
  | case4 s' t l _ ih => rw [mem_cons, ih, mem_cons (l := t :: l)]

theorem pairwise_dropRepeats (h : l.Pairwise (· ≤ ·)) : (dropRepeats l).Pairwise (· < ·) := by
  fun_induction dropRepeats l with
  | case1 => exact .nil
  | case2 s => exact pairwise_singleton _ s
  | case3 t l ih => exact ih h.tail
  | case4 s t l hne ih =>
    obtain ⟨hs, hta⟩ := pairwise_cons.mp h
    refine pairwise_cons.mpr ⟨fun u hu => ?_, ih hta⟩
    have ht : s < t := lt_of_le_of_ne (hs t mem_cons_self) hne
    rcases mem_cons.mp (mem_dropRepeats.mp hu) with rfl | hu
    · exact ht
    · exact ht.trans_le ((pairwise_cons.mp hta).1 u hu)

theorem mem_sortedRefs : s ∈ sortedRefs refs ↔ s ∈ refs := by
  rw [sortedRefs, mem_dropRepeats, (perm_insertionSort _ refs).mem_iff]

theorem sortedRefs_eq_iff : sortedRefs refs = sortedRefs refs' ↔ ∀ r, r ∈ refs ↔ r ∈ refs' := by
  constructor
  · intro h r
    rw [← mem_sortedRefs, h, mem_sortedRefs]
  · intro h
    have hs refs : (sortedRefs refs).Pairwise (· < ·) :=
      pairwise_dropRepeats (pairwise_insertionSort _ refs)
    refine (hs refs).eq_of_mem_iff (hs refs') fun r => ?_
    rw [mem_sortedRefs, mem_sortedRefs, h r]

theorem hashColon_injective (h : hashColon narHash = hashColon narHash') : narHash = narHash' := by
  have he := append_cancel_left h
  have hd := Nixbase32.decode_encode narHash.1
  rw [he, Nixbase32.decode_encode] at hd
  exact Subtype.ext (Except.ok.inj hd).symm

theorem isValidNameChar_of_mem_encode (h : c ∈ Nixbase32.encode b) : isValidNameChar c = true := by
  have hc : ∀ c ∈ Nixbase32.chars, isValidNameChar c = true :=
    all_eq_true.mp (by decide +kernel)
  refine hc c ((Nixbase32.denotes_encode b).mem_chars c ?_)
  exact mem_reverse.mpr h

abbrev ParsedPath := { p : StorePath // StorePath.parse p.full = .ok p }

namespace ParsedPath

theorem full_eq (p : ParsedPath) : p.1.full = storeDir ++ '/' :: p.1.basename := by
  obtain ⟨hf, -⟩ := StorePath.parse_eq_ok.mp p.2
  rw [StorePath.basename, hf]
  rfl

theorem full_injective {p q : ParsedPath} (h : p.1.full = q.1.full) : p = q := by
  have hp := p.2
  rw [h, q.2] at hp
  exact Subtype.ext (Except.ok.inj hp).symm

theorem valid_of_mem_basename (p : ParsedPath) (h : c ∈ p.1.basename) :
    isValidNameChar c = true := by
  obtain ⟨hf, -, hn, -⟩ := StorePath.parse_eq_ok.mp p.2
  have hb : p.1.basename = p.1.hashPart ++ '-' :: p.1.name := by
    rw [StorePath.basename, hf]
    rfl
  rw [hb, mem_append, mem_cons] at h
  rcases h with h | rfl | h
  · exact isValidNameChar_of_mem_encode h
  · rfl
  · exact valid_of_validateName hn c h

theorem notMem_full (p : ParsedPath) (hc : isValidNameChar c = false) (hs : c ≠ '/') :
    c ∉ p.1.full := by
  have hd : ∀ c ∈ storeDir, decide (c = '/' ∨ isValidNameChar c) = true :=
    all_eq_true.mp (by decide +kernel)
  rw [full_eq, mem_append, mem_cons]
  rintro (h | h | h)
  · rcases of_decide_eq_true (hd c h) with h | h
    · exact hs h
    · simp [hc] at h
  · exact hs h
  · simp [p.valid_of_mem_basename h] at hc

end ParsedPath

theorem mem_intercalate (h : c ∈ [sep].intercalate ls) : c = sep ∨ ∃ s ∈ ls, c ∈ s := by
  induction ls with
  | nil => cases h
  | cons s ls ih =>
    cases ls with
    | nil => exact .inr ⟨s, mem_cons_self, by simpa using h⟩
    | cons s' ls =>
      rw [intercalate_cons_cons, append_assoc, mem_append, mem_append, mem_singleton] at h
      rcases h with h | h | h
      · exact .inr ⟨s, mem_cons_self, h⟩
      · exact .inl h
      · exact (ih h).imp_right fun ⟨t, ht, hc⟩ => ⟨t, mem_cons_of_mem s ht, hc⟩

theorem refs_injective (h : ∀ r ∈ refs, ',' ∉ r ∧ r ≠ []) (h' : ∀ r ∈ refs', ',' ∉ r ∧ r ≠ [])
    (heq : [','].intercalate refs = [','].intercalate refs') : refs = refs' := by
  have he {r : Text} {refs : List Text} (hr : r ≠ []) :
      [','].intercalate (r :: refs) ≠ [','].intercalate [] := by
    cases refs with
    | nil => simpa using hr
    | cons r' refs => simp
  cases refs with
  | nil =>
    cases refs' with
    | nil => rfl
    | cons r' refs' => exact absurd heq.symm (he (h' r' mem_cons_self).2)
  | cons r refs =>
    cases refs' with
    | nil => exact absurd heq (he (h r mem_cons_self).2)
    | cons r' refs' =>
      rw [← splitOn_intercalate ',' (fun s hs => (h s hs).1) (cons_ne_nil r refs), heq,
        splitOn_intercalate ',' (fun s hs => (h' s hs).1) (cons_ne_nil r' refs')]

structure PathInfo where
  storePath : ParsedPath
  narHash : Digest
  narSize : Nat
  references : List ParsedPath

namespace PathInfo

def refs (t : PathInfo) : List Text := t.references.map (·.1.full)

def fingerprint (t : PathInfo) : Text :=
  Drv.fingerprint t.storePath.1.full t.narHash t.narSize t.refs

/-- The references of the text are base names, in any order. -/
structure Written (t : PathInfo) (n : NarInfo) : Prop where
  storePath : n.storePath = t.storePath.1.full
  narHash : n.narHash = hashColon t.narHash
  narSize : n.narSize = t.narSize
  references : n.references.Perm (t.references.map (·.1.basename))

theorem mem_refs_iff {t : PathInfo} : r.1.full ∈ t.refs ↔ r ∈ t.references := by
  rw [refs, mem_map]
  constructor
  · rintro ⟨r', hr', heq⟩
    rwa [← ParsedPath.full_injective heq]
  · exact fun h => ⟨r, h, rfl⟩

theorem sortedRefs_refs_eq_iff {t t' : PathInfo} :
    sortedRefs t.refs = sortedRefs t'.refs ↔ ∀ r, r ∈ t.references ↔ r ∈ t'.references := by
  rw [sortedRefs_eq_iff]
  constructor
  · intro h r
    rw [← mem_refs_iff, h, mem_refs_iff]
  · intro h s
    simp [refs, h]

theorem field_of_mem_sortedRefs {t : PathInfo} (hc : isValidNameChar c = false) (hsl : c ≠ '/') :
    ∀ s ∈ sortedRefs t.refs, c ∉ s ∧ s ≠ [] := by
  intro s hs
  obtain ⟨r, -, rfl⟩ := mem_map.mp (mem_sortedRefs.mp hs)
  refine ⟨r.notMem_full hc hsl, ?_⟩
  rw [r.full_eq]
  exact append_ne_nil_of_right_ne_nil _ (cons_ne_nil _ _)

def fields (t : PathInfo) : List Text :=
  [['1'], t.storePath.1.full, hashColon t.narHash, Nat.toDigits 10 t.narSize,
    [','].intercalate (sortedRefs t.refs)]

theorem notMem_fields (t : PathInfo) : ∀ f ∈ t.fields, ';' ∉ f := by
  simp only [fields, forall_mem_cons]
  refine ⟨by decide, t.storePath.notMem_full rfl (by decide), ?_, ?_, ?_, nofun⟩
  · have ht : ';' ∉ "sha256:".toList := by decide +kernel
    intro h
    rcases mem_append.mp h with h | h
    · exact ht h
    · exact absurd (isValidNameChar_of_mem_encode h) (by decide)
  · intro h
    exact absurd (Nat.isDigit_of_mem_toDigits (by decide) (by decide) h) (by decide)
  · intro h
    obtain h | ⟨s, hs, h⟩ := mem_intercalate h
    · cases h
    · exact (field_of_mem_sortedRefs rfl (by decide) s hs).1 h

theorem fingerprint_eq_iff {t t' : PathInfo} : t.fingerprint = t'.fingerprint ↔
    t.storePath = t'.storePath ∧ t.narHash = t'.narHash ∧ t.narSize = t'.narSize ∧
      ∀ r, r ∈ t.references ↔ r ∈ t'.references := by
  rw [← sortedRefs_refs_eq_iff]
  constructor
  · intro h
    have hf : t.fields = t'.fields := by
      rw [← splitOn_intercalate ';' t.notMem_fields (cons_ne_nil _ _),
        ← splitOn_intercalate ';' t'.notMem_fields (cons_ne_nil _ _)]
      exact congrArg _ h
    simp only [fields, cons.injEq, true_and, and_true] at hf
    obtain ⟨hp, hh, hs, hr⟩ := hf
    refine ⟨ParsedPath.full_injective hp, hashColon_injective hh, ?_,
      refs_injective (field_of_mem_sortedRefs rfl (by decide))
        (field_of_mem_sortedRefs rfl (by decide)) hr⟩
    rw [← Nat.ofDigitChars_toDigits (b := 10) (n := t.narSize) (by decide) (by decide), hs,
      Nat.ofDigitChars_toDigits (by decide) (by decide)]
  · rintro ⟨hp, hh, hs, hr⟩
    rw [fingerprint, fingerprint, Drv.fingerprint, Drv.fingerprint, signedText, signedText, hp,
      hh, hs, hr]

theorem Written.storeDir_eq {t : PathInfo} (h : t.Written n) :
    n.storeDir = some (storeDir ++ ['/']) := by
  have hb : '/' ∉ t.storePath.1.basename := fun hm =>
    absurd (t.storePath.valid_of_mem_basename hm) (by decide)
  have hs : ∀ c ∈ t.storePath.1.basename.reverse, decide (c ≠ '/') = true := by
    rintro c hc
    rw [decide_eq_true_iff]
    rintro rfl
    exact hb (mem_reverse.mp hc)
  have hp := h.storePath.trans t.storePath.full_eq
  rw [NarInfo.storeDir, hp, reverse_append, reverse_cons, append_assoc, dropWhile_append_of_pos hs]
  rfl

theorem Written.reconstructed_eq {t : PathInfo} (h : t.Written n) :
    n.reconstructed = some t.fingerprint := by
  have hr : sortedRefs (n.references.map (storeDir ++ ['/'] ++ ·)) = sortedRefs t.refs := by
    rw [sortedRefs_eq_iff]
    intro s
    rw [(h.references.map _).mem_iff, refs]
    simp [Function.comp_apply, ParsedPath.full_eq]
  rw [NarInfo.reconstructed, h.storeDir_eq, Option.map_some, signedText, hr, h.storePath,
    h.narHash, h.narSize]
  rfl

end PathInfo

theorem NarInfo.verify_of_verifySig {n : NarInfo}
    (h : n.verifySig parseKey verify trustedKeys = some name) :
    ∃ fp vk sigText, n.reconstructed = some fp ∧ name ++ ':' :: sigText ∈ n.sigs ∧
      verify vk fp sigText = true := by
  unfold verifySig at h
  simp only at h
  split at h
  · cases h
  · obtain ⟨fp, hf, h⟩ := Option.bind_eq_some_iff.mp h
    obtain ⟨sig, hsi, h⟩ := exists_of_findSome?_eq_some h
    obtain ⟨⟨sigName, sigText⟩, hs, h⟩ := Option.bind_eq_some_iff.mp h
    obtain ⟨⟨_, vk⟩, -, h⟩ := Option.bind_eq_some_iff.mp h
    simp only [Option.ite_none_right_eq_some, Option.some.injEq] at h
    obtain ⟨hv, rfl⟩ := h
    refine ⟨fp, vk, sigText, hf, ?_, hv⟩
    rwa [← (splitOnce_eq_some.mp hs).1]

theorem fingerprint_binds : (∀ t t' : PathInfo, t.fingerprint = t'.fingerprint ↔
      t.storePath = t'.storePath ∧ t.narHash = t'.narHash ∧ t.narSize = t'.narSize ∧
        ∀ r, r ∈ t.references ↔ r ∈ t'.references) ∧
    ∀ (t : PathInfo) (n : NarInfo), t.Written n → n.reconstructed = some t.fingerprint ∧
      ∀ (Key : Type) (parseKey : Text → Option Key) (verify : Key → Text → Text → Bool)
        (trustedKeys : List Text) (name : Text),
        n.verifySig parseKey verify trustedKeys = some name →
          ∃ vk sigText, name ++ ':' :: sigText ∈ n.sigs ∧
            verify vk t.fingerprint sigText = true := by
  refine ⟨fun t t' => PathInfo.fingerprint_eq_iff, fun t n hn => ⟨hn.reconstructed_eq, ?_⟩⟩
  intro Key parseKey verify trustedKeys name h
  obtain ⟨fp, vk, sigText, hf, hs, hv⟩ := NarInfo.verify_of_verifySig h
  cases hf.symm.trans hn.reconstructed_eq
  exact ⟨vk, sigText, hs, hv⟩

def zeroPath (name : Text) : StorePath :=
  ⟨List.replicate 20 0, name, storeDir ++ '/' :: (List.replicate 32 '0' ++ '-' :: name)⟩

def twoReferences : PathInfo where
  storePath := ⟨zeroPath ['o'], by decide +kernel⟩
  narHash := ⟨List.replicate 32 1, rfl⟩
  narSize := 120
  references := [⟨zeroPath ['a'], by decide +kernel⟩, ⟨zeroPath ['b'], by decide +kernel⟩]

/-- The references are in the other order, and a signature is the signed text. -/
def twoReferencesInfo : NarInfo where
  storePath := (zeroPath ['o']).full
  narHash := hashColon twoReferences.narHash
  narSize := 120
  references := [(zeroPath ['b']).basename, (zeroPath ['a']).basename]
  sigs := ['k' :: ':' :: twoReferences.fingerprint]

theorem fingerprint_binds_twoReferences : twoReferences.Written twoReferencesInfo ∧
    twoReferencesInfo.reconstructed = some twoReferences.fingerprint ∧
    ({ twoReferences with references := twoReferences.references.reverse }).fingerprint =
      twoReferences.fingerprint ∧
    ∃ vk sigText : Text, ['k'] ++ ':' :: sigText ∈ twoReferencesInfo.sigs ∧
      decide (sigText = vk ++ twoReferences.fingerprint) = true := by
  obtain ⟨hi, hb⟩ := fingerprint_binds
  have hw : twoReferences.Written twoReferencesInfo := ⟨rfl, rfl, rfl, by decide +kernel⟩
  obtain ⟨hr, hv⟩ := hb twoReferences twoReferencesInfo hw
  refine ⟨hw, hr, (hi _ _).mpr ⟨rfl, rfl, rfl, fun r => mem_reverse⟩, ?_⟩
  exact hv Text some (fun vk fp sig => decide (sig = vk ++ fp)) [['k', ':']] ['k']
    (by decide +kernel)

end RioBuild.Drv
