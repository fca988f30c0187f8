import Mathlib
import RioBuild.Drv.Hash

namespace RioBuild.Drv

open Lib Castore List

structure HashedInput where
  path : Text
  drv : Derivation
  hash : Digest

def HashedInput.rewrite (i : HashedInput) : Text × Text := (i.path, hexEncode i.hash)

section Spec

variable (sha256 : Text → Digest) (resolveInput : Text → Option Derivation)

/-- Inputs are hashed unmasked, whatever they are. -/
inductive Modulo : Derivation → Bool → Digest → Prop
  | fixed {drv : Derivation} {mask : Bool} {o : DerivationOutput}
    (hfixed : drv.fixedOutput = some o) : Modulo drv mask (sha256 (fixedFingerprint o))
  | inputs {drv : Derivation} {mask : Bool} {text : Text} (inputs : List HashedInput)
    (hfixed : drv.fixedOutput = none)
    (hkeys : inputs.map HashedInput.path = drv.inputDrvs.keys)
    (hresolve : ∀ i ∈ inputs, resolveInput i.path = some i.drv)
    (hhash : ∀ i ∈ inputs, Modulo i.drv false i.hash)
    (htext : drv.toAtermModulo (.ofList (inputs.map HashedInput.rewrite)) mask = .ok text) :
    Modulo drv mask (sha256 text)

def Needs (p q : Text) : Prop := ∃ drv, resolveInput p = some drv ∧ q ∈ drv.inputDrvs.keys

def Shallow (n : Nat) (p : Text) : Prop :=
  ∀ l, List.IsChain (Needs resolveInput) (p :: l) → (p :: l).length ≤ n

structure DrvGraph (nodes : Finset Text) : Prop where
  total : ∀ p ∈ nodes, ∃ drv, resolveInput p = some drv
  closed : ∀ p ∈ nodes, ∀ q, Needs resolveInput p q → q ∈ nodes
  acyclic : ∀ p ∈ nodes, ¬Relation.TransGen (Needs resolveInput) p p
  shallow : ∀ p ∈ nodes, Shallow resolveInput maxHashRecursionDepth p

end Spec

variable {sha256 : Text → Digest} {resolveInput : Text → Option Derivation} {drv : Derivation}
  {path : Text} {mask : Bool} {s : HashState}

theorem DrvGraph.of_rank (rank : Text → Nat)
    (h : ∀ p ∈ nodes, ∃ drv, resolveInput p = some drv ∧
      ∀ q ∈ drv.inputDrvs.keys, q ∈ nodes ∧ rank q < rank p)
    (hlm : ∀ p ∈ nodes, rank p < maxHashRecursionDepth) : DrvGraph resolveInput nodes := by
  have hne : ∀ p ∈ nodes, ∀ q, Needs resolveInput p q → q ∈ nodes ∧ rank q < rank p := by
    rintro p hp q ⟨drv, hd, hq⟩
    obtain ⟨drv', hd', hi⟩ := h p hp
    rw [hd] at hd'
    cases hd'
    exact hi q hq
  have hb : ∀ p ∈ nodes, ∀ q, Relation.TransGen (Needs resolveInput) p q →
      q ∈ nodes ∧ rank q < rank p := by
    intro p hp q hpq
    induction hpq with
    | single hpq => exact hne p hp _ hpq
    | tail _ hqr ih =>
      obtain ⟨hr, hlt⟩ := hne _ ih.1 _ hqr
      exact ⟨hr, hlt.trans ih.2⟩
  have hw : ∀ l, ∀ p ∈ nodes, List.IsChain (Needs resolveInput) (p :: l) → l.length ≤ rank p := by
    intro l
    induction l with
    | nil => exact fun p _ _ => Nat.zero_le _
    | cons q l ih =>
      intro p hp hc
      obtain ⟨hpq, hc⟩ := isChain_cons_cons.mp hc
      obtain ⟨hq, hlt⟩ := hne p hp q hpq
      exact (ih q hq hc).trans_lt hlt
  refine ⟨fun p hp => ?_, fun p hp q hpq => (hne p hp q hpq).1, fun p hp hpp => ?_,
    fun p hp l hl => ?_⟩
  · exact (h p hp).imp fun _ hd => hd.1
  · exact (hb p hp p hpp).2.false
  · exact (Nat.succ_le_succ (hw l p hp hl)).trans (hlm p hp)

theorem inputs_unique {l l' : List HashedInput}
    (hkeys : l.map HashedInput.path = l'.map HashedInput.path)
    (h : ∀ i ∈ l, ∀ j ∈ l', i.path = j.path → i = j) : l = l' := by
  induction l generalizing l' with
  | nil => exact (map_eq_nil_iff.mp hkeys.symm).symm
  | cons i l ih =>
    cases l' with
    | nil => cases hkeys
    | cons j l' =>
      obtain ⟨hp, hkeys⟩ := cons.inj hkeys
      have hh := h i mem_cons_self j mem_cons_self hp
      have ht := ih hkeys fun i hi j hj =>
        h i (mem_cons_of_mem _ hi) j (mem_cons_of_mem _ hj)
      rw [hh, ht]

theorem Modulo.unique (hm : Modulo sha256 resolveInput drv mask h)
    (hm' : Modulo sha256 resolveInput drv mask h') : h' = h := by
  induction hm generalizing h' with
  | fixed hfixed =>
    cases hm' with
    | fixed hfixed' =>
      rw [hfixed] at hfixed'
      cases hfixed'
      rfl
    | inputs _ hn => rw [hfixed] at hn; cases hn
  | inputs l hfixed hkeys hresolve _ htext ih =>
    cases hm' with
    | fixed hs => rw [hfixed] at hs; cases hs
    | inputs l' _ hkeys' hresolve' hhash' htext' =>
      have hsa : l = l' := by
        refine inputs_unique (hkeys.trans hkeys'.symm) fun i hi j hj hp => ?_
        have hd : i.drv = j.drv := by
          have hi' := hresolve i hi
          rw [hp, hresolve' j hj] at hi'
          exact (Option.some.inj hi').symm
        have hhash : j.hash = i.hash := ih i hi (hd ▸ hhash' j hj)
        obtain ⟨p', d', h'⟩ := j
        cases hp
        cases hd
        cases hhash
        rfl
      subst hsa
      rw [htext] at htext'
      cases htext'
      rfl

theorem replaceInputs_ok
    (h : ∀ e ∈ l, rewrites.get? e.1 ≠ none) (replaced : OrdMap Text (OrdSet Text)) :
    ∃ m, replaceInputs rewrites l replaced = .ok m := by
  induction l generalizing replaced with
  | nil => exact ⟨replaced, rfl⟩
  | cons e l ih =>
    obtain ⟨hk, hl⟩ := forall_mem_cons.mp h
    obtain ⟨key, hs⟩ := Option.ne_none_iff_exists'.mp hk
    rw [replaceInputs, hs]
    exact ih hl _

theorem toAtermModulo_ok {l : List HashedInput} (h : l.map HashedInput.path = drv.inputDrvs.keys)
    (mask : Bool) :
    ∃ text, drv.toAtermModulo (.ofList (l.map HashedInput.rewrite)) mask = .ok text := by
  have ha : ∀ e ∈ drv.inputDrvs.entries,
      (OrdMap.ofList (l.map HashedInput.rewrite)).get? e.1 ≠ none := by
    intro e he
    have hk : e.1 ∈ l.map HashedInput.path := h ▸ mem_map_of_mem he
    obtain ⟨i, hi, hp⟩ := mem_map.mp hk
    refine OrdMap.get?_extend.mpr (.inr ⟨hexEncode i.hash, mem_map.mpr ⟨i, hi, ?_⟩⟩)
    rw [HashedInput.rewrite, hp]
  obtain ⟨inputs, hin⟩ := replaceInputs_ok ha .empty
  rw [Derivation.toAtermModulo, hin]
  exact ⟨_, rfl⟩

def Coherent (sha256 : Text → Digest) (resolveInput : Text → Option Derivation)
    (cache : Map Text Digest) : Prop :=
  ∀ p h, cache.lookup p = some h →
    ∃ drv, resolveInput p = some drv ∧ Modulo sha256 resolveInput drv false h

theorem coherent_empty : Coherent sha256 resolveInput ∅ := by
  intro p h hp
  cases hp

theorem Coherent.insert (hc : Coherent sha256 resolveInput cache)
    (hresolve : resolveInput path = some drv) (hm : Modulo sha256 resolveInput drv false h) :
    Coherent sha256 resolveInput (cache.insert path h) := by
  intro p h' hp
  rw [Map.lookup_insert_ite] at hp
  split at hp
  · rename_i hpa
    cases hp
    exact ⟨drv, hpa ▸ hresolve, hm⟩
  · exact hc p h' hp

def Returns (sha256 : Text → Digest) (resolveInput : Text → Option Derivation) {α : Type}
    (x : HashM α) (s : HashState) (P : α → Prop) : Prop :=
  ∃ a s', x s = (.ok a, s') ∧ s'.visiting = s.visiting ∧
    Coherent sha256 resolveInput s'.hashCache ∧ P a

theorem returns_hashInputs
    (hca : ∀ p ∈ paths, ∃ drv, resolveInput p = some drv ∧ ∀ s',
      s'.visiting = s.visiting → Coherent sha256 resolveInput s'.hashCache →
        Returns sha256 resolveInput (hashInput drv p) s' (Modulo sha256 resolveInput drv false))
    (hc : Coherent sha256 resolveInput s.hashCache) (rewrites : OrdMap Text Text) :
    Returns sha256 resolveInput (hashInputs resolveInput hashInput paths rewrites) s fun m =>
      ∃ inputs : List HashedInput, inputs.map HashedInput.path = paths ∧
        (∀ i ∈ inputs, resolveInput i.path = some i.drv ∧
          Modulo sha256 resolveInput i.drv false i.hash) ∧
        m = rewrites.extend (inputs.map HashedInput.rewrite) := by
  induction paths generalizing s rewrites with
  | nil => exact ⟨rewrites, s, rfl, rfl, hc, [], rfl, forall_mem_nil _, rfl⟩
  | cons p paths ih =>
    obtain ⟨⟨drv, hd, hf⟩, hre⟩ := forall_mem_cons.mp hca
    obtain ⟨hash, s1, hr, hv, hc1, hm⟩ := hf s rfl hc
    obtain ⟨m, s2, hr2, hv2, hc2, inputs, hp, hi, rfl⟩ :=
      ih (hv ▸ hre) hc1 (rewrites.insert p (hexEncode hash))
    refine ⟨_, s2, ?_, hv2.trans hv, hc2, ⟨p, drv, hash⟩ :: inputs, ?_, ?_, rfl⟩
    · rw [hashInputs, hd]
      simp only [hr]
      exact hr2
    · rw [map_cons, hp]
    · exact forall_mem_cons.mpr ⟨⟨hd, hm⟩, hi⟩

theorem Shallow.input (h : Shallow resolveInput (n + 1) p) (hp : Needs resolveInput p q) :
    Shallow resolveInput n q := by
  intro l hl
  exact Nat.le_of_succ_le_succ (h (q :: l) (.cons_cons hp hl))

structure Entered (sha256 : Text → Digest) (resolveInput : Text → Option Derivation)
    (s : HashState) (path : Text) : Prop where
  coherent : Coherent sha256 resolveInput s.hashCache
  above : ∀ v ∈ s.visiting, Relation.TransGen (Needs resolveInput) v path

theorem Entered.input (h : Entered sha256 resolveInput s path)
    (hne : Needs resolveInput path q) {s' : HashState} (hvi : s'.visiting = insert path s.visiting)
    (hc : Coherent sha256 resolveInput s'.hashCache) : Entered sha256 resolveInput s' q := by
  refine ⟨hc, fun v hv => ?_⟩
  rw [hvi, Finset.mem_insert] at hv
  rcases hv with rfl | hv
  · exact .single hne
  · exact (h.above v hv).tail hne

theorem returns_computeHash
    (hca : ∀ p ∈ drv.inputDrvs.keys, ∃ d, resolveInput p = some d ∧ ∀ s',
      s'.visiting = s.visiting → Coherent sha256 resolveInput s'.hashCache →
        Returns sha256 resolveInput (hashInput d p) s' (Modulo sha256 resolveInput d false))
    (hc : Coherent sha256 resolveInput s.hashCache) :
    Returns sha256 resolveInput (computeHash sha256 resolveInput hashInput drv mask) s
      (Modulo sha256 resolveInput drv mask) := by
  unfold Returns computeHash
  cases hfixed : drv.fixedOutput with
  | some o => exact ⟨_, s, rfl, rfl, hc, .fixed hfixed⟩
  | none =>
    obtain ⟨m, s', hr, hv, hc', inputs, hkeys, hin, rfl⟩ :=
      returns_hashInputs hca hc .empty
    obtain ⟨text, htext⟩ := toAtermModulo_ok hkeys mask
    refine ⟨sha256 text, s', ?_, hv, hc', ?_⟩
    · simp only [hr]
      rw [show OrdMap.extend .empty (inputs.map HashedInput.rewrite) = .ofList _ from rfl, htext]
      rfl
    · exact .inputs inputs hfixed hkeys (fun i hi => (hin i hi).1) (fun i hi => (hin i hi).2) htext

theorem returns_whileVisiting (hresolve : resolveInput path = some drv) (hn : path ∉ s.visiting)
    (hb : Returns sha256 resolveInput body { s with visiting := insert path s.visiting }
      (Modulo sha256 resolveInput drv mask)) :
    Returns sha256 resolveInput (whileVisiting path mask body) s
      (Modulo sha256 resolveInput drv mask) := by
  obtain ⟨hash, s', hr, hv, hc, hm⟩ := hb
  have he : s'.visiting.erase path = s.visiting := by
    rw [hv]
    exact Finset.erase_insert hn
  unfold Returns whileVisiting
  simp only [hr]
  cases mask with
  | true => exact ⟨hash, _, rfl, he, hc, hm⟩
  | false => exact ⟨hash, _, rfl, he, hc.insert hresolve hm, hm⟩

theorem returns_unlessKnown (hresolve : resolveInput path = some drv) (hn : path ∉ s.visiting)
    (hc : Coherent sha256 resolveInput s.hashCache)
    (hr : Returns sha256 resolveInput rest s (Modulo sha256 resolveInput drv mask)) :
    Returns sha256 resolveInput (unlessKnown path mask rest) s
      (Modulo sha256 resolveInput drv mask) := by
  unfold Returns unlessKnown
  cases mask with
  | true =>
    simp only [if_neg hn]
    exact hr
  | false =>
    cases hk : s.hashCache.lookup path with
    | none =>
      simp only [if_neg hn]
      exact hr
    | some hash =>
      obtain ⟨drv', hd', hm⟩ := hc path hash hk
      rw [hresolve] at hd'
      cases hd'
      exact ⟨hash, s, rfl, rfl, hc, hm⟩

section

variable (hg : DrvGraph resolveInput nodes)
include hg

theorem returns_inner (hp : path ∈ nodes)
    (hresolve : resolveInput path = some drv) (hn : Shallow resolveInput n path)
    (hs : Entered sha256 resolveInput s path) (mask : Bool) :
    Returns sha256 resolveInput (hashDerivationModuloInner sha256 resolveInput n drv path mask) s
      (Modulo sha256 resolveInput drv mask) := by
  have hnew : path ∉ s.visiting := fun hm => hg.acyclic path hp (hs.above path hm)
  induction n generalizing drv path s mask with
  | zero => exact absurd (hn [] (isChain_singleton path)) (Nat.not_succ_le_zero 0)
  | succ n ih =>
    refine returns_unlessKnown hresolve hnew hs.coherent ?_
    refine returns_whileVisiting hresolve hnew (returns_computeHash (fun q hq => ?_) hs.coherent)
    have hne : Needs resolveInput path q := ⟨drv, hresolve, hq⟩
    have hq' := hg.closed path hp q hne
    obtain ⟨d, hd⟩ := hg.total q hq'
    refine ⟨d, hd, fun s' hv hc => ?_⟩
    have hs' := hs.input hne hv hc
    exact ih hq' hd (hn.input hne) hs' false fun hm => hg.acyclic q hq' (hs'.above q hm)

theorem hashDerivationModulo_ok (hp : path ∈ nodes)
    (hresolve : resolveInput path = some drv) (hc : Coherent sha256 resolveInput cache) :
    ∃ h, (hashDerivationModulo sha256 resolveInput drv path cache).1 = .ok h ∧
      Modulo sha256 resolveInput drv drv.hasCaFloatingOutputs h ∧
      Coherent sha256 resolveInput (hashDerivationModulo sha256 resolveInput drv path cache).2 := by
  have hs : Entered sha256 resolveInput ⟨cache, ∅⟩ path :=
    ⟨hc, fun v hv => absurd hv (Finset.notMem_empty v)⟩
  obtain ⟨h, s, hr, -, hc', hm⟩ :=
    returns_inner hg hp hresolve (hg.shallow path hp) hs drv.hasCaFloatingOutputs
  unfold hashDerivationModulo
  rw [hr]
  exact ⟨h, rfl, hm, hc'⟩

theorem hashCalls_ok (hcal : ∀ c ∈ calls, c.2 ∈ nodes ∧ resolveInput c.2 = some c.1)
    (hc : Coherent sha256 resolveInput cache) :
    List.Forall₂ (fun c r => ∃ h, r = .ok h ∧
        Modulo sha256 resolveInput c.1 c.1.hasCaFloatingOutputs h)
      calls (hashCalls sha256 resolveInput calls cache).1 ∧
      Coherent sha256 resolveInput (hashCalls sha256 resolveInput calls cache).2 := by
  induction calls generalizing cache with
  | nil => exact ⟨.nil, hc⟩
  | cons c calls ih =>
    obtain ⟨⟨hn, hresolve⟩, hre⟩ := forall_mem_cons.mp hcal
    obtain ⟨h, ho, hm, hc'⟩ := hashDerivationModulo_ok hg hn hresolve hc
    obtain ⟨hr, hca⟩ := ih hre hc'
    exact ⟨.cons ⟨h, ho, hm⟩ hr, hca⟩

end

/-- Each call returns the hash that the recursion without a cache gives, which is also what the
call returns on its own; only unmasked hashes are ever in the cache. -/
theorem hashCalls_eq_modulo (hg : DrvGraph resolveInput nodes) (calls : List (Derivation × Text))
    (hcalls : ∀ c ∈ calls, c.2 ∈ nodes ∧ resolveInput c.2 = some c.1) :
    List.Forall₂ (fun c r => ∃ h, r = .ok h ∧
        (∀ h', Modulo sha256 resolveInput c.1 c.1.hasCaFloatingOutputs h' ↔ h' = h) ∧
        (hashDerivationModulo sha256 resolveInput c.1 c.2 ∅).1 = .ok h)
      calls (hashCalls sha256 resolveInput calls ∅).1 ∧
      ∀ p h, (hashCalls sha256 resolveInput calls ∅).2.lookup p = some h →
        ∃ drv, resolveInput p = some drv ∧
          ∀ h', Modulo sha256 resolveInput drv false h' ↔ h' = h := by
  have hi {d : Derivation} {m : Bool} {h : Digest} hm
      h' : Modulo sha256 resolveInput d m h' ↔ h' = h :=
    ⟨hm.unique, fun heq => heq ▸ hm⟩
  obtain ⟨hr, hc⟩ := hashCalls_ok hg hcalls coherent_empty
  constructor
  · refine ((forall₂_and_left _ _).mpr ⟨hcalls, hr⟩).imp ?_
    rintro c r ⟨⟨hn, hresolve⟩, h, rfl, hm⟩
    obtain ⟨h', ha, hm', -⟩ := hashDerivationModulo_ok hg hn hresolve coherent_empty
    exact ⟨h, rfl, hi hm, hm.unique hm' ▸ ha⟩
  · intro p h hp
    obtain ⟨drv, hd, hm⟩ := hc p h hp
    exact ⟨drv, hd, hi hm⟩

def diamond : List (Text × Derivation) :=
  let drv (out : DerivationOutput) (inputs : List Text) : Derivation :=
    { outputs := [out]
      inputDrvs := .ofList (inputs.map (·, OrdSet.ofList ["out".toList]))
      inputSrcs := .empty
      platform := []
      builder := []
      args := []
      env := .empty }
  let known : DerivationOutput := ⟨"out".toList, "/p".toList, [], [], by decide⟩
  let floating : DerivationOutput := ⟨"out".toList, [], "r:sha256".toList, [], by decide⟩
  [("t".toList, drv floating ["l".toList, "r".toList]), ("l".toList, drv known ["b".toList]),
    ("r".toList, drv floating ["b".toList]), ("b".toList, drv known [])]

def diamondInput (p : Text) : Option Derivation := List.lookup p diamond

def lengthHash (t : Text) : Digest := ⟨List.replicate 32 (.ofNat t.length), length_replicate⟩

theorem hashCalls_eq_modulo_diamond :
    DrvGraph diamondInput {"t".toList, "l".toList, "r".toList, "b".toList} ∧
      Coherent lengthHash diamondInput (hashCalls lengthHash diamondInput
        ((diamond ++ diamond.take 2).map Prod.swap) ∅).2 := by
  have hg : DrvGraph diamondInput {"t".toList, "l".toList, "r".toList, "b".toList} := by
    refine .of_rank (fun p => if p = "t".toList then 2 else if p = "b".toList then 0 else 1) ?_ ?_
    · intro p hp
      simp only [Finset.mem_insert, Finset.mem_singleton] at hp
      obtain rfl | rfl | rfl | rfl := hp
      all_goals
        refine ⟨_, rfl, ?_⟩
        decide
    · decide
  refine ⟨hg, fun p h hp => ?_⟩
  obtain ⟨drv, hd, hm⟩ := (hashCalls_eq_modulo hg _ (by decide)).2 p h hp
  exact ⟨drv, hd, (hm h).mpr rfl⟩

end RioBuild.Drv
