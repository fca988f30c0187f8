import RioBuild.Drv.Aterm

namespace RioBuild.Drv

open Lib List

variable {α : Type} {s p rest : Text}

theorem reads_expect (lit : Text) : Reads (expect lit) fun _ p => p = lit := by
  intro s a rest
  change (if lit.isPrefixOf s then Except.ok ((), s.drop lit.length) else _) = _ ↔ _
  split_ifs with hp
  · obtain ⟨t, rfl⟩ := isPrefixOf_iff_prefix.mp hp
    rw [drop_left, Except.ok.injEq, Prod.mk.injEq, exists_eq_left]
    exact ⟨fun h => by rw [h.2], fun h => ⟨rfl, append_cancel_left h⟩⟩
  · refine iff_of_false nofun ?_
    rintro ⟨p, rfl, rfl⟩
    exact hp ( isPrefixOf_iff_prefix.mpr (prefix_append p rest))

theorem reads_expect_bind (hf : Reads (f ()) N) :
    Reads (expect lit >>= f) fun b p => ∃ q, N b q ∧ p = lit ++ q := by
  refine ((reads_expect lit).bind fun _ => hf).congr fun b p => ?_
  constructor
  · rintro ⟨_, p1, q, rfl, hq, rfl⟩
    exact ⟨q, hq, rfl⟩
  · rintro ⟨q, hq, rfl⟩
    exact ⟨(), lit, q, rfl, hq, rfl⟩

theorem reads_expect_return (lit : Text) (a : α) :
    Reads (do expect lit; return a : AtermReader α) fun b p => b = a ∧ p = lit := by
  refine (reads_expect_bind (Reads.pure a)).congr fun b p => ?_
  constructor
  · rintro ⟨q, ⟨rfl, rfl⟩, rfl⟩
    exact ⟨rfl, append_nil lit⟩
  · rintro ⟨rfl, rfl⟩
    exact ⟨[], ⟨rfl, rfl⟩, (append_nil p).symm⟩

/-- The text between the quotes of a string; control characters may stand for themselves. -/
inductive Spells : (s p : Text) → Prop
  | nil : Spells [] []
  | raw {c : Char} {s p : Text} (quote : c ≠ '"') (backslash : c ≠ '\\') (rest : Spells s p) :
    Spells (c :: s) (c :: p)
  | escaped {e c : Char} {s p : Text} (escape : unescape e = some c) (rest : Spells s p) :
    Spells (c :: s) ('\\' :: e :: p)

theorem stringBody_eq_ok : stringBody result s = .ok (a, rest) ↔
    ∃ b p, Spells b p ∧ a = result ++ b ∧ s = p ++ '"' :: rest := by
  fun_induction stringBody result s with
  | case1 result =>
    refine iff_of_false nofun ?_
    rintro ⟨b, p, -, -, h⟩
    cases p <;> cases h
  | case2 result rest' =>
    rw [Except.ok.injEq, Prod.mk.injEq]
    constructor
    · rintro ⟨rfl, rfl⟩
      exact ⟨[], [], .nil, (append_nil _).symm, rfl⟩
    · rintro ⟨b, p, hb, rfl, h⟩
      cases hb with
      | nil => exact ⟨(append_nil _).symm, (cons.inj h).2⟩
      | raw quote => exact absurd (cons.inj h).1.symm quote
      | escaped => cases h
  | case3 result =>
    refine iff_of_false nofun ?_
    rintro ⟨b, p, hb, -, h⟩
    cases hb with
    | nil => cases h
    | raw _ backslash => exact backslash (cons.inj h).1.symm
    | escaped => cases h
  | case4 result e rest' c hc ih =>
    rw [ih]
    constructor
    · rintro ⟨b, p, hb, rfl, rfl⟩
      exact ⟨c :: b, '\\' :: e :: p, .escaped hc hb, append_assoc _ _ _, rfl⟩
    · rintro ⟨b, p, hb, rfl, h⟩
      cases hb with
      | nil => cases h
      | raw _ backslash => exact absurd (cons.inj h).1.symm backslash
      | escaped he hr =>
        cases h
        cases hc.symm.trans he
        exact ⟨_, _, hr, append_cons _ _ _, rfl⟩
  | case5 result e rest' hn =>
    refine iff_of_false nofun ?_
    rintro ⟨b, p, hb, -, h⟩
    cases hb with
    | nil => cases h
    | raw _ backslash => exact backslash (cons.inj h).1.symm
    | escaped he =>
      cases h
      cases hn.symm.trans he
  | case6 result c rest' hq hen hes ih =>
    rw [ih]
    constructor
    · rintro ⟨b, p, hb, rfl, rfl⟩
      refine ⟨c :: b, c :: p, .raw (fun h => hq h) ?_ hb, append_assoc _ _ _, rfl⟩
      rintro rfl
      cases p with
      | nil | cons d p => exact hes _ _ rfl rfl
    · rintro ⟨b, p, hb, rfl, h⟩
      cases hb with
      | nil => exact absurd (cons.inj h).1 hq
      | raw _ _ hr =>
        cases h
        exact ⟨_, _, hr, append_cons _ _ _, rfl⟩
      | escaped =>
        cases h
        exact absurd rfl (hes _ _ rfl)

def StringText (a p : Text) : Prop := ∃ q, Spells a q ∧ p = '"' :: (q ++ ['"'])

theorem reads_parseString : Reads parseString StringText := by
  intro s a rest
  cases s with
  | nil =>
    refine iff_of_false nofun ?_
    rintro ⟨p, ⟨q, -, rfl⟩, h⟩
    cases h
  | cons c s =>
    by_cases hc : c = '"'
    · subst hc
      change stringBody [] s = _ ↔ _
      rw [stringBody_eq_ok]
      constructor
      · rintro ⟨b, p, hb, rfl, rfl⟩
        exact ⟨_, ⟨p, hb, rfl⟩, by simp⟩
      · rintro ⟨p, ⟨q, hq, rfl⟩, h⟩
        exact ⟨a, q, hq, rfl, by simpa using h⟩
    · have hr : parseString.run (c :: s) = .error .expectedStringStart := by
        have hne : some c ≠ some '"' := fun h => hc (Option.some.inj h)
        exact congrArg (fun x : AtermReader Text => x.run (c :: s)) (if_pos hne)
      rw [hr]
      refine iff_of_false nofun ?_
      rintro ⟨p, ⟨q, -, rfl⟩, h⟩
      exact hc (cons.inj h).1

def ItemsText (item : α → Text → Prop) (l : List α) (p : Text) : Prop :=
  ∃ ps, Forall₂ item l ps ∧ p = [','].intercalate ps ++ [']']

def ListText (item : α → Text → Prop) (l : List α) (p : Text) : Prop :=
  l.length ≤ maxAtermListItems ∧ ∃ q, ItemsText item l q ∧ p = '[' :: q

variable {item : Nat → AtermReader α} {I : α → Text → Prop}

theorem itemsText_singleton : ItemsText I [a] p ↔ ∃ q, I a q ∧ p = q ++ [']'] := by
  constructor
  · rintro ⟨ps, h, rfl⟩
    cases h with
    | cons ha h =>
      cases h
      exact ⟨_, ha, by simp⟩
  · rintro ⟨q, ha, rfl⟩
    exact ⟨[q], .cons ha .nil, by simp⟩

theorem itemsText_cons :
    ItemsText I (a :: b :: l) p ↔ ∃ q r, I a q ∧ ItemsText I (b :: l) r ∧ p = q ++ ',' :: r := by
  constructor
  · rintro ⟨ps, h, rfl⟩
    cases h with
    | cons ha h =>
      cases h with
      | cons hb h => exact ⟨_, _, ha, ⟨_, .cons hb h, rfl⟩, by simp⟩
  · rintro ⟨q, r, ha, ⟨ps, h, rfl⟩, rfl⟩
    cases h with
    | cons hb h => exact ⟨_, .cons ha (.cons hb h), by simp⟩

def afterItem (item : Nat → AtermReader α) (left : Nat) (items : List α) :
    Option Char → AtermReader (List α)
  | some ',' => do
    advance
    parseItems item left items
  | some ']' => do
    advance
    return items
  | _ => throw .unexpectedEof

theorem reads_parseItems (h : ∀ i, Reads (item i) I) :
    Reads (parseItems item left items) fun all p =>
      ∃ l, l ≠ [] ∧ all = items ++ l ∧ l.length ≤ left ∧ ItemsText I l p := by
  induction left generalizing items with
  | zero =>
    intro s all rest
    refine iff_of_false nofun ?_
    rintro ⟨p, ⟨l, hne, -, hl, -⟩, -⟩
    exact hne (length_eq_zero_iff.mp (Nat.le_zero.mp hl))
  | succ left ih =>
    have hn a : Reads (peek >>= afterItem item left (items ++ [a])) fun all p =>
          (all = items ++ [a] ∧ p = [']']) ∨ ∃ l q, l ≠ [] ∧ all = items ++ [a] ++ l ∧
            l.length ≤ left ∧ ItemsText I l q ∧ p = ',' :: q := by
      intro s all rest
      change (afterItem item left (items ++ [a]) s.head?).run s = _ ↔ _
      unfold afterItem
      split
      · rename_i hh
        obtain ⟨s, rfl⟩ := head?_eq_some_iff.mp hh
        change (parseItems item left (items ++ [a])).run s = _ ↔ _
        rw [ih]
        constructor
        · rintro ⟨q, ⟨l, hne, hal, hl, hq⟩, rfl⟩
          exact ⟨_, .inr ⟨l, q, hne, hal, hl, hq, rfl⟩, rfl⟩
        · rintro ⟨p, ⟨-, rfl⟩ | ⟨l, q, hne, hal, hl, hq, rfl⟩, h⟩
          · cases h
          · exact ⟨q, ⟨l, hne, hal, hl, hq⟩, (cons.inj h).2⟩
      · rename_i hh
        obtain ⟨s, rfl⟩ := head?_eq_some_iff.mp hh
        constructor
        · rintro ⟨⟩
          exact ⟨_, .inl ⟨rfl, rfl⟩, rfl⟩
        · rintro ⟨p, ⟨rfl, rfl⟩ | ⟨l, q, -, -, -, -, rfl⟩, h⟩
          · cases h
            rfl
          · cases h
      · rename_i hc hcl
        refine iff_of_false nofun ?_
        rintro ⟨p, ⟨-, rfl⟩ | ⟨l, q, -, -, -, -, rfl⟩, rfl⟩
        · exact hcl rfl
        · exact hc rfl
    refine ((h items.length).bind hn).congr fun all p => ?_
    constructor
    · rintro ⟨a, p1, p2, ha, ⟨rfl, rfl⟩ | ⟨l, q, hne, rfl, hl, hq, rfl⟩, rfl⟩
      · refine ⟨[a], cons_ne_nil _ _, rfl, Nat.le_add_left 1 left, ?_⟩
        exact itemsText_singleton.mpr ⟨p1, ha, rfl⟩
      · refine ⟨a :: l, cons_ne_nil _ _, by simp, Nat.succ_le_succ hl, ?_⟩
        obtain ⟨b, l, rfl⟩ := exists_cons_of_ne_nil hne
        exact itemsText_cons.mpr ⟨p1, q, ha, hq, rfl⟩
    · rintro ⟨l, hne, rfl, hl, hp⟩
      obtain ⟨a, l, rfl⟩ := exists_cons_of_ne_nil hne
      cases l with
      | nil =>
        obtain ⟨q, ha, rfl⟩ := itemsText_singleton.mp hp
        exact ⟨a, q, _, ha, .inl ⟨rfl, rfl⟩, rfl⟩
      | cons b l =>
        obtain ⟨q, r, ha, hr, rfl⟩ := itemsText_cons.mp hp
        exact ⟨a, q, _, ha, .inr ⟨b :: l, r, cons_ne_nil _ _, by simp,
          Nat.le_of_succ_le_succ hl, hr, rfl⟩, rfl⟩

def Opens (I : α → Text → Prop) : Prop := ∀ a p, I a p → ∃ c q, p = c :: q ∧ c ≠ ']'

theorem opens_string : Opens StringText := by
  rintro a p ⟨q, -, rfl⟩
  exact ⟨_, _, rfl, by decide⟩

theorem ItemsText.opens {l : List α} (h : ItemsText I l p) (hI : Opens I) (hl : l ≠ []) :
    ∃ c q, p = c :: q ∧ c ≠ ']' := by
  obtain ⟨a, l, rfl⟩ := exists_cons_of_ne_nil hl
  cases l with
  | nil =>
    obtain ⟨q, ha, rfl⟩ := itemsText_singleton.mp h
    obtain ⟨c, q, rfl, hc⟩ := hI a q ha
    exact ⟨c, _, rfl, hc⟩
  | cons b l =>
    obtain ⟨q, r, ha, -, rfl⟩ := itemsText_cons.mp h
    obtain ⟨c, q, rfl, hc⟩ := hI a q ha
    exact ⟨c, _, rfl, hc⟩

theorem reads_parseList (h : ∀ i, Reads (item i) I) (hI : Opens I) :
    Reads (parseList item) (ListText I) := by
  have hb : Reads (do
      if (← peek) = some ']' then do
        advance
        return []
      else parseItems item maxAtermListItems []) fun l q =>
        l.length ≤ maxAtermListItems ∧ ItemsText I l q := by
    intro s l rest
    change (if s.head? = some ']' then (do advance; return []) else
      parseItems item maxAtermListItems [] : AtermReader (List α)).run s = _ ↔ _
    split_ifs with hh
    · obtain ⟨s, rfl⟩ := head?_eq_some_iff.mp hh
      constructor
      · rintro ⟨⟩
        exact ⟨[']'], ⟨Nat.zero_le _, [], .nil, rfl⟩, rfl⟩
      · rintro ⟨p, ⟨-, hp⟩, heq⟩
        by_cases hl : l = []
        · subst hl
          obtain ⟨ps, hps, rfl⟩ := hp
          cases hps
          cases heq
          rfl
        · obtain ⟨c, q, rfl, hc⟩ := hp.opens hI hl
          exact absurd (cons.inj heq).1.symm hc
    · rw [reads_parseItems h]
      refine exists_congr fun p => and_congr_left fun heq => ?_
      constructor
      · rintro ⟨l', hne, rfl, hle, hp⟩
        exact ⟨hle, hp⟩
      · rintro ⟨hle, hp⟩
        refine ⟨l, ?_, rfl, hle, hp⟩
        rintro rfl
        obtain ⟨ps, hps, rfl⟩ := hp
        cases hps
        exact hh (heq ▸ rfl)
  refine (reads_expect_bind hb).congr fun l p => ?_
  constructor
  · rintro ⟨q, ⟨hle, hq⟩, rfl⟩
    exact ⟨hle, q, hq, rfl⟩
  · rintro ⟨hle, q, hq, rfl⟩
    exact ⟨q, ⟨hle, hq⟩, rfl⟩

/-- The lists of a derivation as they are written, before they become sets and maps. -/
structure Raw where
  outputs : List DerivationOutput
  inputDrvs : List (Text × List Text)
  inputSrcs : List Text
  platform : Text
  builder : Text
  args : List Text
  env : List (Text × Text)

def collectInput (x : Text × List Text) : Text × OrdSet Text := (x.1, OrdSet.ofList x.2)

def Raw.collect (raw : Raw) : Derivation :=
  { outputs := raw.outputs
    inputDrvs := OrdMap.ofList (raw.inputDrvs.map collectInput)
    inputSrcs := OrdSet.ofList raw.inputSrcs
    platform := raw.platform
    builder := raw.builder
    args := raw.args
    env := OrdMap.ofList raw.env }

def OutputText (o : DerivationOutput) (p : Text) : Prop :=
  ∃ p₁ p₂ p₃ p₄, StringText o.name p₁ ∧ StringText o.path p₂ ∧ StringText o.hashAlgo p₃ ∧
    StringText o.hash p₄ ∧ p = '(' :: (p₁ ++ ',' :: (p₂ ++ ',' :: (p₃ ++ ',' :: (p₄ ++ [')']))))

def InputDrvText (x : Text × List Text) (p : Text) : Prop :=
  ∃ p₁ p₂, StringText x.1 p₁ ∧ ListText StringText x.2 p₂ ∧ p = '(' :: (p₁ ++ ',' :: (p₂ ++ [')']))

def VarText (x : Text × Text) (p : Text) : Prop :=
  ∃ p₁ p₂, StringText x.1 p₁ ∧ StringText x.2 p₂ ∧ p = '(' :: (p₁ ++ ',' :: (p₂ ++ [')']))

def RawText (raw : Raw) (p : Text) : Prop :=
  ∃ p₁ p₂ p₃ p₄ p₅ p₆ p₇, ListText OutputText raw.outputs p₁ ∧
    ListText InputDrvText raw.inputDrvs p₂ ∧ ListText StringText raw.inputSrcs p₃ ∧
    StringText raw.platform p₄ ∧ StringText raw.builder p₅ ∧ ListText StringText raw.args p₆ ∧
    ListText VarText raw.env p₇ ∧
    p = deriveOpen ++ (p₁ ++ ',' :: (p₂ ++ ',' :: (p₃ ++ ',' :: (p₄ ++ ',' :: (p₅ ++
      ',' :: (p₆ ++ ',' :: (p₇ ++ [')'])))))))

theorem opens_output : Opens OutputText := by
  rintro o p ⟨p1, p2, p3, p4, -, -, -, -, rfl⟩
  exact ⟨_, _, rfl, by decide⟩

theorem opens_inputDrv : Opens InputDrvText := by
  rintro x p ⟨p1, p2, -, -, rfl⟩
  exact ⟨_, _, rfl, by decide⟩

theorem opens_var : Opens VarText := by
  rintro x p ⟨p1, p2, -, -, rfl⟩
  exact ⟨_, _, rfl, by decide⟩

theorem reads_parseStringList : Reads parseStringList (ListText StringText) :=
  reads_parseList (fun _ => reads_parseString) opens_string

theorem reads_new (name path hashAlgo hash : Text) (i : Nat) :
    Reads (match DerivationOutput.new name path hashAlgo hash with
      | .ok o => pure o
      | .error _ => throw (.emptyOutputName i) : AtermReader DerivationOutput) fun o p =>
        (o.name = name ∧ o.path = path ∧ o.hashAlgo = hashAlgo ∧ o.hash = hash) ∧ p = [] := by
  unfold DerivationOutput.new
  by_cases hn : name = []
  · rw [dif_pos hn]
    intro s o rest
    refine iff_of_false nofun ?_
    rintro ⟨p, ⟨⟨h, -⟩, -⟩, -⟩
    exact o.named (h.trans hn)
  · rw [dif_neg hn]
    refine (Reads.pure _).congr fun o p => and_congr_left fun _ => ?_
    constructor
    · rintro rfl
      exact ⟨rfl, rfl, rfl, rfl⟩
    · rintro ⟨rfl, rfl, rfl, rfl⟩
      rfl

theorem reads_parseOutput (i : Nat) : Reads (parseOutput i) OutputText := by
  refine (reads_expect_bind (reads_parseString.bind fun name =>
    reads_expect_bind (reads_parseString.bind fun path =>
    reads_expect_bind (reads_parseString.bind fun hashAlgo =>
    reads_expect_bind (reads_parseString.bind fun hash =>
    reads_expect_bind (reads_new name path hashAlgo hash i)))))).congr fun o p => ?_
  constructor
  · rintro ⟨_, ⟨name, p1, _, h1, ⟨_, ⟨path, p2, _, h2, ⟨_, ⟨hashAlgo, p3, _, h3, ⟨_, ⟨hash, p4, _,
      h4, ⟨_, ⟨⟨rfl, rfl, rfl, rfl⟩, rfl⟩, rfl⟩, rfl⟩, rfl⟩, rfl⟩, rfl⟩, rfl⟩, rfl⟩, rfl⟩, rfl⟩
    exact ⟨p1, p2, p3, p4, h1, h2, h3, h4, rfl⟩
  · rintro ⟨p1, p2, p3, p4, h1, h2, h3, h4, rfl⟩
    exact ⟨_, ⟨_, p1, _, h1, ⟨_, ⟨_, p2, _, h2, ⟨_, ⟨_, p3, _, h3, ⟨_, ⟨_, p4, _, h4,
      ⟨_, ⟨⟨rfl, rfl, rfl, rfl⟩, rfl⟩, rfl⟩, rfl⟩, rfl⟩, rfl⟩, rfl⟩, rfl⟩, rfl⟩, rfl⟩, rfl⟩

theorem reads_parseVar : Reads parseVar VarText := by
  refine (reads_expect_bind (reads_parseString.bind fun key =>
    reads_expect_bind (reads_parseString.bind fun value =>
    reads_expect_return [')'] (key, value)))).congr fun x p => ?_
  constructor
  · rintro ⟨_, ⟨key, p1, _, h1, ⟨_, ⟨value, p2, _, h2, ⟨rfl, rfl⟩, rfl⟩, rfl⟩, rfl⟩, rfl⟩
    exact ⟨p1, p2, h1, h2, rfl⟩
  · rintro ⟨p1, p2, h1, h2, rfl⟩
    exact ⟨_, ⟨_, p1, _, h1, ⟨_, ⟨_, p2, _, h2, ⟨rfl, rfl⟩, rfl⟩, rfl⟩, rfl⟩, rfl⟩

theorem reads_parseInputDrv :
    Reads parseInputDrv fun x p => ∃ raw, x = collectInput raw ∧ InputDrvText raw p := by
  refine (reads_expect_bind (reads_parseString.bind fun path =>
    reads_expect_bind (reads_parseStringList.bind fun names =>
    reads_expect_return [')'] (path, OrdSet.ofList names)))).congr fun x p => ?_
  constructor
  · rintro ⟨_, ⟨path, p1, _, h1, ⟨_, ⟨names, p2, _, h2, ⟨rfl, rfl⟩, rfl⟩, rfl⟩, rfl⟩, rfl⟩
    exact ⟨(path, names), rfl, p1, p2, h1, h2, rfl⟩
  · rintro ⟨raw, rfl, p1, p2, h1, h2, rfl⟩
    exact ⟨_, ⟨_, p1, _, h1, ⟨_, ⟨_, p2, _, h2, ⟨rfl, rfl⟩, rfl⟩, rfl⟩, rfl⟩, rfl⟩

theorem listText_map {R : β → Text → Prop} {l : List α} :
    ListText (fun a p => ∃ b, a = f b ∧ R b p) l p ↔ ∃ l', l = l'.map f ∧ ListText R l' p := by
  constructor
  · rintro ⟨hle, q, ⟨ps, h, rfl⟩, rfl⟩
    have hm : ∃ l', l = l'.map f ∧ Forall₂ R l' ps := by
      clear hle
      induction h with
      | nil => exact ⟨[], rfl, .nil⟩
      | cons ha _ ih =>
        obtain ⟨b, rfl, hb⟩ := ha
        obtain ⟨l', rfl, hl'⟩ := ih
        exact ⟨b :: l', rfl, .cons hb hl'⟩
    obtain ⟨l', rfl, hl'⟩ := hm
    rw [length_map] at hle
    exact ⟨l', rfl, hle, _, ⟨ps, hl', rfl⟩, rfl⟩
  · rintro ⟨l', rfl, hle, q, ⟨ps, h, rfl⟩, rfl⟩
    refine ⟨by rwa [length_map], _, ⟨ps, ?_, rfl⟩, rfl⟩
    exact forall₂_map_left_iff.mpr (h.imp fun b p hb => ⟨b, rfl, hb⟩)

theorem reads_parseInputDrvs : Reads parseInputDrvs fun m p =>
    ∃ l, m = OrdMap.ofList (l.map collectInput) ∧ ListText InputDrvText l p := by
  have ho : Opens fun x p => ∃ raw, x = collectInput raw ∧ InputDrvText raw p := by
    rintro x p ⟨raw, -, h⟩
    exact opens_inputDrv raw p h
  refine ((reads_parseList (fun _ => reads_parseInputDrv) ho).bind fun drvs =>
    Reads.pure (OrdMap.ofList drvs)).congr fun m p => ?_
  constructor
  · rintro ⟨drvs, p1, _, h1, ⟨rfl, rfl⟩, rfl⟩
    obtain ⟨l, rfl, hl⟩ := listText_map.mp h1
    exact ⟨l, rfl, by rwa [append_nil]⟩
  · rintro ⟨l, rfl, hl⟩
    exact ⟨_, p, [], listText_map.mpr ⟨l, rfl, hl⟩, ⟨rfl, rfl⟩, (append_nil p).symm⟩

theorem reads_parseEnv :
    Reads parseEnv fun m p => ∃ l, m = OrdMap.ofList l ∧ ListText VarText l p := by
  refine ((reads_parseList (fun _ => reads_parseVar) opens_var).bind fun vars =>
    Reads.pure (OrdMap.ofList vars)).congr fun m p => ?_
  constructor
  · rintro ⟨l, p1, _, h1, ⟨rfl, rfl⟩, rfl⟩
    exact ⟨l, rfl, by rwa [append_nil]⟩
  · rintro ⟨l, rfl, hl⟩
    exact ⟨l, p, [], hl, ⟨rfl, rfl⟩, (append_nil p).symm⟩

def DerivationText (d : Derivation) (p : Text) : Prop :=
  ∃ raw : Raw, raw.outputs ≠ [] ∧ d = raw.collect ∧ RawText raw p

theorem reads_unless [Decidable c] (hk : Reads (k ()) N) :
    Reads (if c then (throw e : AtermReader Unit) >>= k else k ()) fun b p => ¬c ∧ N b p := by
  by_cases hc : c
  · rw [if_pos hc]
    intro s b rest
    refine iff_of_false nofun ?_
    rintro ⟨p, ⟨hn, -⟩, -⟩
    exact hn hc
  · rw [if_neg hc]
    exact hk.congr fun b p => (and_iff_right hc).symm

theorem reads_parseDerivation : Reads parseDerivation DerivationText := by
  refine (reads_expect_bind ((reads_parseList reads_parseOutput opens_output).bind fun outputs =>
    reads_unless
    (reads_expect_bind (reads_parseInputDrvs.bind fun inputDrvs =>
    reads_expect_bind (reads_parseStringList.bind fun inputSrcs =>
    reads_expect_bind (reads_parseString.bind fun platform =>
    reads_expect_bind (reads_parseString.bind fun builder =>
    reads_expect_bind (reads_parseStringList.bind fun args =>
    reads_expect_bind (reads_parseEnv.bind fun env =>
    reads_expect_return [')'] _))))))))).congr fun d p => ?_
  constructor
  · rintro ⟨_, ⟨outputs, p1, _, h1, ⟨hne, ⟨_, ⟨_, p2, _, ⟨inputDrvs, rfl, h2⟩, ⟨_, ⟨inputSrcs,
      p3, _, h3, ⟨_, ⟨platform, p4, _, h4, ⟨_, ⟨builder, p5, _, h5, ⟨_, ⟨args, p6, _, h6,
      ⟨_, ⟨_, p7, _, ⟨env, rfl, h7⟩, ⟨rfl, rfl⟩, rfl⟩, rfl⟩, rfl⟩, rfl⟩, rfl⟩, rfl⟩, rfl⟩,
      rfl⟩, rfl⟩, rfl⟩, rfl⟩, rfl⟩⟩, rfl⟩, rfl⟩
    exact ⟨⟨outputs, inputDrvs, inputSrcs, platform, builder, args, env⟩, hne, rfl,
      p1, p2, p3, p4, p5, p6, p7, h1, h2, h3, h4, h5, h6, h7, rfl⟩
  · rintro ⟨raw, hne, rfl, p1, p2, p3, p4, p5, p6, p7, h1, h2, h3, h4, h5, h6, h7, rfl⟩
    exact ⟨_, ⟨_, p1, _, h1, ⟨hne, ⟨_, ⟨_, p2, _, ⟨_, rfl, h2⟩, ⟨_, ⟨_, p3, _, h3, ⟨_, ⟨_, p4,
      _, h4, ⟨_, ⟨_, p5, _, h5, ⟨_, ⟨_, p6, _, h6, ⟨_, ⟨_, p7, _, ⟨_, rfl, h7⟩, ⟨rfl, rfl⟩,
      rfl⟩, rfl⟩, rfl⟩, rfl⟩, rfl⟩, rfl⟩, rfl⟩, rfl⟩, rfl⟩, rfl⟩, rfl⟩, rfl⟩⟩, rfl⟩, rfl⟩

theorem Derivation.parse_eq_ok :
    Derivation.parse s = .ok d ↔ ∃ p, DerivationText d p ∧ p <+: s := by
  unfold parse
  constructor
  · intro h
    cases hr : parseDerivation.run s with
    | error e =>
      rw [hr] at h
      cases h
    | ok x =>
      obtain ⟨d', rest⟩ := x
      rw [hr] at h
      cases h
      obtain ⟨p, hp, rfl⟩ := (reads_parseDerivation _ _ _).mp hr
      exact ⟨p, hp, prefix_append p rest⟩
  · rintro ⟨p, hp, rest, rfl⟩
    have hr := (reads_parseDerivation (p ++ rest) d rest).mpr ⟨p, hp, rfl⟩
    rw [hr]
    rfl

end RioBuild.Drv
