import RioBuild.Nar.Parse

namespace RioBuild.Nar

open Lib Nar.Frame Reader Cursor

theorem fromUtf8_eq_ok : fromUtf8 context b = .ok s ↔ b = s ∧ validUtf8 b = true := by
  unfold fromUtf8
  split_ifs with h
  · rw [Except.ok.injEq]
    exact (and_iff_left h).symm
  · exact iff_of_false nofun fun hs => h hs.2

theorem readString_eq_ok : readString.run c = .ok (s, c1) ↔
    validUtf8 s = true ∧ s.length ≤ maxTargetLen ∧ c.Ate (writeBytes s) c1 := by
  simp only [readString, bind_eq_ok, lift_eq_ok, fromUtf8_eq_ok, readTargetBytes_eq_ok]
  constructor
  · rintro ⟨_, _, hr, ⟨rfl, hutf8⟩, rfl⟩
    exact ⟨hutf8, hr⟩
  · rintro ⟨hutf8, hr⟩
    exact ⟨s, c1, hr, ⟨rfl, hutf8⟩, rfl⟩

theorem readString_takes (word : Word s) : readString.Takes (ascii s) (token s) :=
  fun _ _ => by
    rw [readString_eq_ok, ← and_assoc]
    exact and_iff_right word

theorem textLexer : Lexer readString expectStr where
  read word := readString_takes word
  expect word := (readString_takes word).alone

theorem readNodeType_eq_ok :
    readNodeType.run c = .ok (kind, c1) ↔ c.Ate (nodeOpen ++ token (kindWord kind)) c1 := by
  refine textLexer.kind.trans ?_
  simp only [pure_eq_ok]
  cases kind with
  | regular | directory | symlink => simp [kindWord, directoryOpen]

theorem readExecutable_eq_ok : readExecutable.run c = .ok (x, c1) ↔ c.Ate (marker x) c1 :=
  textLexer.executable

theorem readTarget_eq_ok : readTarget.run c = .ok (s, c1) ↔
    (validUtf8 s = true ∧ s.length ≤ maxTargetLen) ∧
      c.Ate (token "target" ++ writeBytes s) c1 := by
  simp (disch := decide) only [readTarget, bind_eq_ok, textLexer.expect, exists_const,
    readTargetBytes_eq_ok, lift_eq_ok, fromUtf8_eq_ok, ate_append]
  constructor
  · rintro ⟨c2, hw, _, _, ⟨hl, hr⟩, ⟨rfl, hutf8⟩, rfl⟩
    exact ⟨⟨hutf8, hl⟩, c2, hw, hr⟩
  · rintro ⟨⟨hutf8, hl⟩, c2, hw, hr⟩
    exact ⟨c2, hw, s, c1, ⟨hl, hr⟩, ⟨rfl, hutf8⟩, rfl⟩

theorem readBytesBounded_eq_ok {max : Nat} (hm : max < 2 ^ 64) :
    (readBytesBounded max).run c = .ok (s, c1) ↔ s.length ≤ max ∧ c.Ate (writeBytes s) c1 :=
  readBounded_eq_ok hm

theorem readEntry_eq_ok :
    readEntry.run c = .ok (more, c1) ↔ c.Ate (if more then token "entry" else nodeClose) c1 := by
  simp (disch := decide) only [readEntry,
    Takes.choose₂ (textLexer.read _) (textLexer.read _), pure_eq_ok]
  cases more with
  | false | true => simp [nodeClose]

def TextName (name : Bytes) : Prop := ValidName name ∧ validUtf8 name = true

theorem readEntryName_eq_ok : (readEntryName prev).run c = .ok (name, c1) ↔
    TextName name ∧ (∀ p ∈ prev, p < name) ∧
      c.Ate (token "(" ++ (token "name" ++ (writeBytes name ++ token "node"))) c1 := by
  simp (disch := decide) only [readEntryName, validateEntryName, bind_eq_ok,
    textLexer.expect, exists_const, readNameBytes_eq_ok, lift_eq_ok, fromUtf8_eq_ok,
    validateEntryNameBytes_eq_ok, ate_append]
  constructor
  · rintro ⟨c2, ho, c3, hl, _, c4, ⟨hle, hrd⟩, _, _, ⟨⟨rfl, hutf8⟩, rfl⟩, _, ⟨hv, rfl⟩, hr⟩
    obtain ⟨hs, hr⟩ := sorted_eq_ok.mp hr
    simp (disch := decide) only [bind_eq_ok, textLexer.expect, exists_const] at hr
    obtain ⟨_, hn, rfl, rfl⟩ := hr
    exact ⟨⟨⟨hv, hle⟩, hutf8⟩, hs, c2, ho, c3, hl, c4, hrd, hn⟩
  · rintro ⟨⟨⟨hv, hle⟩, hutf8⟩, hs, c2, ho, c3, hl, c4, hrd, hn⟩
    refine ⟨c2, ho, c3, hl, name, c4, ⟨hle, hrd⟩, name, c4, ⟨⟨rfl, hutf8⟩, rfl⟩, c4,
      ⟨hv, rfl⟩, sorted_eq_ok.mpr ⟨hs, ?_⟩⟩
    simp (disch := decide) only [bind_eq_ok, textLexer.expect, exists_const, pure_eq_ok]
    exact ⟨c1, hn, trivial, rfl⟩

instance (name : Bytes) : Decidable (TextName name) :=
  inferInstanceAs (Decidable ((validComponent name = true ∧ name.length ≤ maxNameLen) ∧ _))

/-- What a walker asks of the place of a node (`can`), of a name (`p`) and of a leaf (`q`). -/
structure Walker.Spec (w : Walker) (can : Entries Bytes → Bytes → Prop) (p : Bytes → Prop)
    (q : Leaf Bytes → Prop) : Prop where
  regular {siblings : Entries Bytes} {name : Bytes} {c c₁ : Cursor} {l : Leaf Bytes} :
    (w.regular siblings name).run c = .ok (l, c₁) ↔
      l.kind = .regular ∧ can siblings name ∧ q l ∧ c.Ate l.body c₁
  symlink {siblings : Entries Bytes} {name : Bytes} {c c₁ : Cursor} {l : Leaf Bytes} :
    (w.symlink siblings name).run c = .ok (l, c₁) ↔
      l.kind = .symlink ∧ can siblings name ∧ q l ∧ c.Ate l.body c₁
  directory {siblings : Entries Bytes} {name : Bytes} :
    w.directory siblings name = .ok () ↔ can siblings name
  can_iff {entries : Entries Bytes} {name : Bytes} (last : ∀ m ∈ entries.names, m < name) :
    can entries name ↔ p name
  push {entries : Entries Bytes} {name : Bytes} (node : Node Bytes)
    (last : ∀ m ∈ entries.names, m < name) :
    w.push entries name node = entries.append (node.cons name .nil)

theorem readNode_succ_eq_ok (h : w.Spec can p q) :
    (readNode w (fuel + 1) siblings name depth).run c = .ok (t, c1) ↔
      can siblings name ∧ depth ≤ maxNarDepth ∧
        ((∃ l, t = .leaf l ∧ q l ∧ c.Ate l.encode c1) ∨
          ∃ kids c2, t = .dir kids ∧ c.Ate (nodeOpen ++ directoryOpen) c2 ∧
            (readEntries w fuel depth 0 none .nil).run c2 = .ok (kids, c1)) := by
  simp only [readNode, throw_bind, ite_eq_ok, throw_eq_ok, and_false, false_or,
    not_lt, bind_eq_ok, readNodeType_eq_ok]
  constructor
  · rintro ⟨hd, kind, c2, hk, hr⟩
    cases kind with
    | regular | symlink =>
      simp only [bind_eq_ok, h.regular, h.symlink] at hr
      obtain ⟨l, _, ⟨hl, hc, hq, hb⟩, rfl, rfl⟩ := hr
      refine ⟨hc, hd, .inl ⟨l, rfl, hq, ?_⟩⟩
      rw [l.encode_eq, hl]
      exact hk.append hb
    | directory =>
      simp only [bind_eq_ok, lift_eq_ok, h.directory] at hr
      obtain ⟨_, _, ⟨hc, rfl⟩, kids, _, hkd, rfl, rfl⟩ := hr
      exact ⟨hc, hd, .inr ⟨kids, c2, rfl, hk, hkd⟩⟩
  · rintro ⟨hc, hd, ⟨l, rfl, hq, ha⟩ | ⟨kids, c2, rfl, hk, hkd⟩⟩
    · rw [l.encode_eq] at ha
      obtain ⟨c2, hk, hb⟩ := ate_append.mp ha
      refine ⟨hd, l.kind, c2, hk, ?_⟩
      cases l with
      | regular contents executable =>
        exact bind_eq_ok.mpr ⟨_, c1, h.regular.mpr ⟨rfl, hc, hq, hb⟩, rfl⟩
      | symlink target =>
        exact bind_eq_ok.mpr ⟨_, c1, h.symlink.mpr ⟨rfl, hc, hq, hb⟩, rfl⟩
    · refine ⟨hd, .directory, c2, hk, ?_⟩
      simp only [bind_eq_ok, pure_eq_ok, lift_eq_ok, h.directory]
      exact ⟨(), c2, ⟨hc, rfl⟩, kids, c1, hkd, rfl, rfl⟩

theorem readEntries_succ_eq_ok :
    (readEntries w (fuel + 1) depth count prev done).run c = .ok (kids, c1) ↔
      count < maxDirectoryEntries ∧ ((c.Ate nodeClose c1 ∧ kids = done) ∨
        ∃ name t c2 c3 c4, TextName name ∧ (∀ p ∈ prev, p < name) ∧ c.Ate (entryOpen name) c2 ∧
          (readNode w fuel done name (depth + 1)).run c2 = .ok (t, c3) ∧ c3.Ate entryClose c4 ∧
          (readEntries w fuel depth (count + 1) (some name) (w.push done name t)).run c4 =
            .ok (kids, c1)) := by
  simp (disch := decide) only [readEntries, throw_bind, ite_eq_ok,
    throw_eq_ok, and_false, false_or, not_le, bind_eq_ok, readEntry_eq_ok,
    readEntryName_eq_ok, textLexer.expect, pure_eq_ok, exists_const]
  refine and_congr_right fun _ => ?_
  constructor
  · rintro ⟨more, d1, hm, ⟨rfl, name, c2, ⟨hte, hp, hn⟩, t, c3, ht, c4, hc, hr⟩ | ⟨he, rfl, rfl⟩⟩
    · exact .inr ⟨name, t, c2, c3, c4, hte, hp, hm.append hn, ht, hc, hr⟩
    · rw [if_neg he] at hm
      exact .inl ⟨hm, rfl⟩
  · rintro (⟨ha, rfl⟩ | ⟨name, t, c2, c3, c4, hte, hp, ha, ht, hc, hr⟩)
    · exact ⟨false, c1, ha, .inr ⟨Bool.false_ne_true, rfl, rfl⟩⟩
    · obtain ⟨d1, hm, hn⟩ := ate_append.mp ha
      exact ⟨true, d1, hm, .inl ⟨rfl, name, c2, ⟨hte, hp, hn⟩, t, c3, ht, c4, hc, hr⟩⟩

theorem read_eq_ok_aux (h : w.Spec can p q) :
    (∀ siblings name depth c t c1, (readNode w fuel siblings name depth).run c = .ok (t, c1) ↔
        can siblings name ∧ Taken (fun n => TextName n ∧ p n) q fuel depth c t c1) ∧
    ∀ depth count prev done c kids c1, (∀ m ∈ Forest.names done, ∃ p ∈ prev, m ≤ p) →
      ((readEntries w fuel depth count prev done).run c = .ok (kids, c1) ↔
        ∃ f, kids = done.append f ∧
          EntriesTaken (fun n => TextName n ∧ p n) q fuel depth count prev c f c1) := by
  induction fuel with
  | zero =>
    refine ⟨fun siblings name depth c t c1 => ?_, fun depth count prev done c kids c1 _ => ?_⟩
    · exact iff_of_false nofun fun ⟨_, ht⟩ => ht.fuel_pos.ne rfl
    · exact iff_of_false nofun fun ⟨f, _, hf⟩ => hf.fuel_pos.ne rfl
  | succ fuel ih =>
    obtain ⟨ihNode, ihEntries⟩ := ih
    refine ⟨fun siblings name depth c t c1 => ?_, fun depth count prev done c kids c1 hd => ?_⟩
    · rw [readNode_succ_eq_ok h]
      refine and_congr_right fun _ => ?_
      cases t with
      | leaf l =>
        rw [taken_leaf]
        simp
      | dir kids =>
        rw [taken_dir]
        simp [ihEntries _ _ _ _ _ _ _ (by simp : ∀ m ∈ Forest.names .nil, _), Forest.append]
    · have hl {name : Bytes} (hpr : ∀ p ∈ prev, p < name) : ∀ m ∈ done.names, m < name := by
        intro m hm
        obtain ⟨p, hp, hle⟩ := hd m hm
        exact hle.trans_lt (hpr p hp)
      have hne name t (hpr : ∀ p ∈ prev, p < name) :
          ∀ m ∈ (w.push done name t).names, ∃ p ∈ some name, m ≤ p := by
        intro m hm
        rw [h.push t (hl hpr), Forest.names_append, names_cons] at hm
        refine ⟨name, rfl, ?_⟩
        rcases List.mem_append.mp hm with hm | hm
        · exact (hl hpr m hm).le
        · exact (List.mem_singleton.mp hm).le
      rw [readEntries_succ_eq_ok]
      constructor
      · rintro ⟨hc, ⟨ha, rfl⟩ | ⟨name, t, c2, c3, c4, hte, hpr, ho, hn, hcl, hr⟩⟩
        · exact ⟨.nil, Forest.append_nil.symm, entriesTaken_nil.mpr ⟨hc, ha⟩⟩
        · obtain ⟨hca, hn⟩ := (ihNode _ _ _ _ _ _).mp hn
          obtain ⟨f, hk, hf⟩ := (ihEntries _ _ _ _ _ _ _ (hne name t hpr)).mp hr
          rw [h.push t (hl hpr), append_cons] at hk
          exact ⟨t.cons name f, hk, entriesTaken_cons.mpr ⟨hc, c2, c3, c4,
            ⟨hte, (h.can_iff (hl hpr)).mp hca⟩, hpr, ho, hn, hcl, hf⟩⟩
      · rintro ⟨f, rfl, hf⟩
        rcases Node.exists_cons f with rfl | ⟨name, t, rest, rfl⟩
        · obtain ⟨hc, ha⟩ := entriesTaken_nil.mp hf
          exact ⟨hc, .inl ⟨ha, Forest.append_nil⟩⟩
        · obtain ⟨hc, c2, c3, c4, ⟨hte, hp⟩, hpr, ho, hn, hcl, hf⟩ :=
            entriesTaken_cons.mp hf
          refine ⟨hc, .inr ⟨name, t, c2, c3, c4, hte, hpr, ho, ?_, hcl, ?_⟩⟩
          · exact (ihNode _ _ _ _ _ _).mpr ⟨(h.can_iff (hl hpr)).mpr hp, hn⟩
          · refine (ihEntries _ _ _ _ _ _ _ (hne name t hpr)).mpr ⟨rest, ?_, hf⟩
            rw [h.push t (hl hpr), append_cons]

structure Node.Admitted (p : Bytes → Prop) (q : Leaf Bytes → Prop) (t : Node Bytes) : Prop where
  all : t.All (fun name => TextName name ∧ p name) q
  shape : t.Shape maxNarDepth
  narrow : t.Narrow maxDirectoryEntries

theorem readArchive_eq_ok (h : w.Spec can p q) : readArchive w siblings name data = .ok (t, c) ↔
    can siblings name ∧ t.Admitted p q ∧ Ate ⟨data, 0⟩ (archive t) c := by
  have hm : readString.Takes narMagic magic := readString_takes (by decide)
  refine hm.only.trans ?_
  constructor
  · rintro ⟨c2, hto, hr⟩
    obtain ⟨hc, ht⟩ := ((read_eq_ok_aux h).1 _ _ _ _ _ _).mp hr
    exact ⟨hc, ⟨ht.all, ht.shape, ht.narrow⟩, hto.append ht.ate⟩
  · rintro ⟨hc, ht, ha⟩
    have hf := fuel_le_of_ate ha
    obtain ⟨c2, hto, hn⟩ := ate_append.mp ha
    exact ⟨c2, hto, ((read_eq_ok_aux h).1 _ _ _ _ _ _).mpr
      ⟨hc, Nat.zero_le _, ht.all, ht.shape, ht.narrow, hf, hn⟩⟩

def Leaf.InLimits : Leaf Bytes → Prop
  | regular contents _ => contents.length ≤ maxContentSize
  | symlink target => validUtf8 target = true ∧ target.length ≤ maxTargetLen

theorem parseRegular_eq_ok :
    parseRegular.run c = .ok (l, c1) ↔ l.kind = .regular ∧ l.InLimits ∧ c.Ate l.body c1 := by
  simp (disch := decide) only [parseRegular, bind_eq_ok, readExecutable_eq_ok,
    readBytesBounded_eq_ok, textLexer.expect, pure_eq_ok, exists_const]
  constructor
  · rintro ⟨x, c2, hx, contents, c3, ⟨hl, hc⟩, _, hcl, rfl, rfl⟩
    exact ⟨rfl, hl, hx.append (hc.append hcl)⟩
  · rintro ⟨hk, hlm, ha⟩
    cases l with
    | symlink target => cases hk
    | regular contents x =>
      obtain ⟨c2, hx, ha⟩ := ate_append.mp ha
      obtain ⟨c3, hc, hcl⟩ := ate_append.mp ha
      exact ⟨x, c2, hx, contents, c3, ⟨hlm, hc⟩, c1, hcl, rfl, rfl⟩

theorem parseSymlink_eq_ok :
    parseSymlink.run c = .ok (l, c1) ↔ l.kind = .symlink ∧ l.InLimits ∧ c.Ate l.body c1 := by
  simp (disch := decide) only [parseSymlink, bind_eq_ok, readTarget_eq_ok,
    textLexer.expect, pure_eq_ok, exists_const]
  constructor
  · rintro ⟨target, c2, ⟨hl, ht⟩, _, hc, rfl, rfl⟩
    exact ⟨rfl, hl, ht.append hc⟩
  · rintro ⟨hk, hl, ha⟩
    cases l with
    | regular contents x => cases hk
    | symlink target =>
      obtain ⟨c2, ht, hc⟩ := ate_append.mp ha
      exact ⟨target, c2, ⟨hl, ht⟩, c1, hc, rfl, rfl⟩

theorem parser_spec : parser.Spec (fun _ _ => True) (fun _ => True) Leaf.InLimits where
  regular := parseRegular_eq_ok.trans (by simp)
  symlink := parseSymlink_eq_ok.trans (by simp)
  directory := iff_of_true rfl trivial
  can_iff _ := Iff.rfl
  push _ _ := rfl

instance (l : Leaf Bytes) : Decidable l.InLimits :=
  match l with
  | .regular contents _ => inferInstanceAs (Decidable (contents.length ≤ maxContentSize))
  | .symlink target =>
    inferInstanceAs (Decidable (validUtf8 target = true ∧ target.length ≤ maxTargetLen))

structure Node.WithinLimits (t : Node Bytes) : Prop where
  all : t.All TextName Leaf.InLimits
  shape : t.Shape maxNarDepth
  narrow : t.Narrow maxDirectoryEntries

theorem admitted_iff {t : Node Bytes} :
    t.Admitted (fun _ => True) Leaf.InLimits ↔ t.WithinLimits := by
  have ha : (fun name => TextName name ∧ True) = TextName := by
    funext name
    exact and_true _
  constructor
  · rintro ⟨h, hs, hn⟩
    exact ⟨ha ▸ h, hs, hn⟩
  · rintro ⟨h, hs, hn⟩
    rw [← ha] at h
    exact ⟨h, hs, hn⟩

theorem parse_eq_ok : parse data = .ok (t, c) ↔ t.WithinLimits ∧ Ate ⟨data, 0⟩ (archive t) c := by
  unfold parse
  rw [readArchive_eq_ok parser_spec, admitted_iff, true_and]

theorem serializeLeaf_eq :
    writeStr (ascii "(") ++ writeStr (ascii "type") ++ serializeLeaf l = l.encode := by
  rw [l.encode_eq]
  cases l with
  | regular contents executable =>
    simp only [serializeLeaf, Leaf.body, marker, List.append_assoc]
    rfl
  | symlink target =>
    simp [serializeLeaf, writeStr, Leaf.body, Leaf.kind, kindWord, nodeOpen, nodeClose, token]

theorem serializeEntries_eq : serializeEntries f = encodeEntries f := by
  induction f with
  | nil => rfl
  | leaf name l rest ih =>
    rw [serializeEntries, encodeEntries, serializeLeaf_eq, ih]
    simp [writeStr, entryOpen, entryClose, token]
  | dir name kids rest ihk ih =>
    rw [serializeEntries, encodeEntries, ihk, ih]
    simp [writeStr, entryOpen, entryClose, nodeOpen, nodeClose, directoryOpen, token]

theorem serialize_eq (t : Node Bytes) : serialize t = archive t := by
  rw [serialize, archive]
  cases t with
  | leaf l =>
    rw [serializeNode, serializeLeaf_eq]
    rfl
  | dir kids =>
    rw [serializeNode, serializeEntries_eq]
    simp [writeStr, magic, Node.encode, nodeOpen, nodeClose, directoryOpen, token]

theorem ate_serialize (t : Node Bytes) (rest : Bytes) :
    Ate ⟨serialize t ++ rest, 0⟩ (archive t) ⟨rest, (serialize t).length⟩ := by
  rw [serialize_eq]
  exact ⟨rfl, (zero_add _).symm⟩

theorem parse_serialize (t : Node Bytes) (ht : t.WithinLimits) (rest : Bytes) :
    parse (serialize t ++ rest) = .ok (t, ⟨rest, (serialize t).length⟩) :=
  parse_eq_ok.mpr ⟨ht, ate_serialize t rest⟩

def sample : Node Bytes :=
  .dir (.dir (ascii "bin") (.leaf (ascii "sh") (.symlink (ascii "../run")) .nil)
    (.leaf (ascii "run") (.regular [7, 8, 9] true) .nil))

theorem sample_withinLimits : sample.WithinLimits :=
  ⟨by decide, by decide, by decide⟩

theorem parse_serialize_sample : sample.WithinLimits ∧
      parse (serialize sample ++ [1, 2]) = .ok (sample, ⟨[1, 2], (serialize sample).length⟩) :=
  ⟨sample_withinLimits, parse_serialize sample sample_withinLimits [1, 2]⟩

/-- What is read is what the tree is written as: the bytes accepted for a tree are the same
whatever follows them, and so are their digests. -/
theorem serialize_parse {data : Bytes} {t : Node Bytes} (h : parse data = .ok (t, c)) :
    serialize t = data.take c.pos ∧ c.rest = data.drop c.pos ∧
      (∀ data' c', parse data' = .ok (t, c') → data'.take c'.pos = data.take c.pos) ∧
      ∀ digest : Bytes → Bytes, digest (serialize t) = digest (data.take c.pos) := by
  have hr {data : Bytes} {c : Cursor} (h : parse data = .ok (t, c)) :
      serialize t = data.take c.pos ∧ c.rest = data.drop c.pos := by
    obtain ⟨-, hd, hp⟩ := parse_eq_ok.mp h
    dsimp only at hd hp
    rw [hd, hp, zero_add, List.take_left, List.drop_left]
    exact ⟨serialize_eq t, rfl⟩
  obtain ⟨ht, hdro⟩ := hr h
  refine ⟨ht, hdro, fun data' c' h' => ?_, fun digest => by rw [ht]⟩
  rw [← ht, (hr h').1]

theorem serialize_parse_sample :
    parse (serialize sample ++ [1, 2]) = .ok (sample, ⟨[1, 2], (serialize sample).length⟩) ∧
      serialize sample = (serialize sample ++ [1, 2]).take (serialize sample).length := by
  have hp : parse (serialize sample ++ [1, 2]) =
      .ok (sample, ⟨[1, 2], (serialize sample).length⟩) :=
    parse_eq_ok.mpr ⟨sample_withinLimits, ate_serialize sample [1, 2]⟩
  exact ⟨hp, (serialize_parse hp).1⟩

end RioBuild.Nar
