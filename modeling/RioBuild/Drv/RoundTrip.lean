import RioBuild.Drv.Grammar

namespace RioBuild.Drv

open Lib List Drv.Derivation

theorem spells_escape (s : Text) : Spells s (s.flatMap escape) := by
  induction s with
  | nil => exact .nil
  | cons c s ih =>
    rw [flatMap_cons]
    unfold escape
    split
    · exact .escaped rfl ih
    · exact .escaped rfl ih
    · exact .escaped rfl ih
    · exact .escaped rfl ih
    · exact .escaped rfl ih
    · rename_i hb hq _ _ _
      exact .raw hq hb ih

theorem stringText_write (s : Text) : StringText s (writeAtermString s) :=
  ⟨_, spells_escape s, rfl⟩

theorem listText_write (h : ∀ a ∈ l, I a (write a))
    (hl : l.length ≤ maxAtermListItems) : ListText I l (writeList write l) := by
  refine ⟨hl, _, ⟨l.map write, ?_, rfl⟩, rfl⟩
  exact forall₂_map_right_iff.mpr (forall₂_same.mpr h)

theorem stringsText_write (hl : l.length ≤ maxAtermListItems) :
    ListText StringText l (writeList writeAtermString l) :=
  listText_write (fun s _ => stringText_write s) hl

structure Derivation.Listed (d : Derivation) : Prop where
  outputs : d.outputs.length ≤ maxAtermListItems
  inputDrvs : d.inputDrvs.entries.length ≤ maxAtermListItems
  names : ∀ x ∈ d.inputDrvs.entries, x.2.elems.length ≤ maxAtermListItems
  inputSrcs : d.inputSrcs.elems.length ≤ maxAtermListItems
  args : d.args.length ≤ maxAtermListItems
  env : d.env.entries.length ≤ maxAtermListItems

def Derivation.raw (d : Derivation) : Raw :=
  { outputs := d.outputs
    inputDrvs := d.inputDrvs.entries.map fun x => (x.1, x.2.elems)
    inputSrcs := d.inputSrcs.elems
    platform := d.platform
    builder := d.builder
    args := d.args
    env := d.env.entries }

theorem Derivation.collect_raw (d : Derivation) : d.raw.collect = d := by
  have hi : (d.inputDrvs.entries.map fun x => (x.1, x.2.elems)).map collectInput =
      d.inputDrvs.entries := by
    rw [map_map]
    refine (map_congr_left fun x _ => ?_).trans (map_id _)
    exact Prod.ext rfl (OrdSet.ofList_elems x.2)
  rw [raw, Raw.collect]
  rw [hi, OrdMap.ofList_entries, OrdMap.ofList_entries, OrdSet.ofList_elems]

theorem Derivation.rawText_toAterm {d : Derivation} (h : d.Listed) : RawText d.raw d.toAterm := by
  refine ⟨writeAtermOutputs d.outputs false, writeAtermInputDrvs d.inputDrvs.entries,
    writeList writeAtermString d.inputSrcs.elems, writeAtermString d.platform,
    writeAtermString d.builder, writeList writeAtermString d.args,
    writeList (writeVar none) d.env.entries, ?_, ?_, ?_, ?_, ?_, ?_, ?_, ?_⟩
  · refine listText_write (fun o _ => ?_) h.outputs
    exact ⟨_, _, _, _, stringText_write o.name, stringText_write o.path,
      stringText_write o.hashAlgo, stringText_write o.hash, by simp [writeOutput]⟩
  · have hi x hx : InputDrvText (x.1, x.2.elems) (writeInputDrv x) :=
      ⟨_, _, stringText_write x.1, stringsText_write (h.names x hx), by simp [writeInputDrv]⟩
    refine ⟨by simpa [raw] using h.inputDrvs, _, ⟨_, ?_, rfl⟩, rfl⟩
    exact forall₂_map_left_iff.mpr (forall₂_map_right_iff.mpr (forall₂_same.mpr hi))
  · exact stringsText_write h.inputSrcs
  · exact stringText_write d.platform
  · exact stringText_write d.builder
  · exact stringsText_write h.args
  · refine listText_write (fun x _ => ?_) h.env
    exact ⟨_, _, stringText_write x.1, stringText_write x.2, by simp [writeVar]⟩
  · simp [toAterm, writeAtermTail]

theorem Derivation.text_toAterm (ho : d.outputs ≠ []) (h : d.Listed) : DerivationText d d.toAterm :=
  ⟨d.raw, ho, d.collect_raw.symm, rawText_toAterm h⟩

theorem ListText.exists_text (h : ListText I l p) : ∀ a ∈ l, ∃ q, I a q := by
  obtain ⟨-, q, ⟨ps, hp, -⟩, -⟩ := h
  induction hp with
  | nil => exact nofun
  | cons ha _ ih => exact forall_mem_cons.mpr ⟨⟨_, ha⟩, ih⟩

theorem DerivationText.listed (h : DerivationText d p) : d.Listed := by
  obtain ⟨raw, -, rfl, p₁, p₂, p₃, p₄, p₅, p₆, p₇, h₁, h₂, h₃, -, -, h₆, h₇, -⟩ := h
  refine ⟨h₁.1, ?_, ?_, ?_, h₆.1, ?_⟩
  · refine (OrdMap.length_ofList_le _).trans ?_
    rw [length_map]
    exact h₂.1
  · intro x hx
    obtain ⟨y, hy, rfl⟩ := mem_map.mp (OrdMap.mem_ofList hx)
    obtain ⟨q, q₁, q₂, -, hn, -⟩ := h₂.exists_text y hy
    exact (OrdSet.length_ofList_le y.2).trans hn.1
  · exact (OrdSet.length_ofList_le raw.inputSrcs).trans h₃.1
  · exact (OrdMap.length_ofList_le raw.env).trans h₇.1

theorem DerivationText.outputs_ne_nil (h : DerivationText d p) : d.outputs ≠ [] := by
  obtain ⟨raw, hne, rfl, -⟩ := h
  exact hne

theorem parse_toAterm : (∀ d : Derivation, d.outputs ≠ [] → d.Listed → parse d.toAterm = .ok d) ∧
    ∀ (s : Text) (d : Derivation), parse s = .ok d → parse d.toAterm = .ok d ∧
        (parse d.toAterm).map toAterm = .ok d.toAterm := by
  have hf d ho h : parse d.toAterm = .ok d :=
    parse_eq_ok.mpr ⟨_, text_toAterm ho h, prefix_rfl⟩
  refine ⟨hf, fun s d hs => ?_⟩
  obtain ⟨p, hp, -⟩ := parse_eq_ok.mp hs
  have hb := hf d hp.outputs_ne_nil hp.listed
  exact ⟨hb, by rw [hb]; rfl⟩

def sampleDrv : Derivation :=
  { outputs := [⟨"out".toList, [], [], [], out_ne_nil⟩]
    inputDrvs := OrdMap.ofList [("/a.drv".toList, OrdSet.ofList ["out".toList, "dev".toList])]
    inputSrcs := OrdMap.empty
    platform := "x".toList
    builder := "\n\"\\".toList
    args := ["-c".toList]
    env := OrdMap.ofList [("v".toList, "\t".toList)] }

theorem parse_toAterm_sampleDrv : parse sampleDrv.toAterm = .ok sampleDrv ∧
      parse (sampleDrv.toAterm ++ ['x']) = .ok sampleDrv ∧
      (parse sampleDrv.toAterm).map toAterm = .ok sampleDrv.toAterm := by
  have hl : sampleDrv.Listed :=
    ⟨by decide, by decide, by decide, by decide, by decide, by decide⟩
  have hr : parse (sampleDrv.toAterm ++ ['x']) = .ok sampleDrv := by decide +kernel
  exact ⟨parse_toAterm.1 sampleDrv (by decide) hl, hr, (parse_toAterm.2 _ _ hr).2⟩

/-- The term is in front; a part of an accepted text is accepted if it has the whole term, and
what follows the term changes nothing. -/
theorem parse_append {d : Derivation} (h : parse s = .ok d) : (∀ t, parse (s ++ t) = .ok d) ∧
      ∃ p, p <+: s ∧ DerivationText d p ∧ ∀ q, q <+: s → ((∃ d', parse q = .ok d') ↔ p <+: q) := by
  obtain ⟨p, hp, hps⟩ := parse_eq_ok.mp h
  refine ⟨fun t => ?_, p, hps, hp, fun q hq => ⟨?_, fun hpq => ?_⟩⟩
  · exact parse_eq_ok.mpr ⟨p, hp, hps.trans (prefix_append s t)⟩
  · rintro ⟨d', hd'⟩
    obtain ⟨p', hp', hpq'⟩ := parse_eq_ok.mp hd'
    obtain ⟨r, hr⟩ := hps
    obtain ⟨r', hr'⟩ := hpq'.trans hq
    obtain ⟨-, rfl⟩ := reads_parseDerivation.unique hp hp' (hr.trans hr'.symm)
    exact hpq'
  · exact ⟨d, parse_eq_ok.mpr ⟨p, hp, hpq⟩⟩

theorem parse_append_sampleDrv : parse sampleDrv.toAterm = .ok sampleDrv ∧
      parse (sampleDrv.toAterm ++ "garbage".toList) = .ok sampleDrv := by
  have hr : parse sampleDrv.toAterm = .ok sampleDrv := by decide +kernel
  exact ⟨hr, (parse_append hr).1 _⟩

theorem parse_accepts_trailing : parse sampleDrv.toAterm = .ok sampleDrv ∧
      parse (sampleDrv.toAterm ++ ['x']) = .ok sampleDrv := by
  decide +kernel

end RioBuild.Drv
