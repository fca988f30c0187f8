import RioBuild.Nar.Reader
import RioBuild.Nar.Taken

namespace RioBuild.Nar

open Lib Castore Nar.Frame List Reader

variable {blake3 : Bytes → Digest} {c c₁ c₂ : Cursor} {path name : Bytes} {depth count fuel : Nat}
  {prev : Option Bytes} {out out' : LsOut} {es es' : List NarLsEntry}

def Word (s : String) : Prop := validUtf8 (ascii s) = true ∧ (ascii s).length ≤ maxTargetLen

instance (s : String) : Decidable (Word s) := inferInstanceAs (Decidable (_ ∧ _))

structure Lexer (read : Reader NarError Bytes) (expect : Bytes → Reader NarError Unit) : Prop where
  read {s : String} (word : Word s) : read.Takes (ascii s) (token s)
  expect {s : String} (word : Word s) {u : Unit} {c c₁ : Cursor} :
    (expect (ascii s)).run c = .ok (u, c₁) ↔ c.Ate (token s) c₁

namespace Lexer

variable {read : Reader NarError Bytes} {expect : Bytes → Reader NarError Unit}

variable {e : Bytes → NarError}

theorem executable (lex : Lexer read expect) {x : Bool} : (do
    let token ← read
    if token = ascii "executable" then do
      expect []
      expect (ascii "contents")
      return true
    else if token = ascii "contents" then return false
    else throw (e token) : Reader NarError Bool).run c = .ok (x, c₁) ↔ c.Ate (marker x) c₁ := by
  rw [show expect [] = expect (ascii "") from rfl,
    Takes.choose₂ (lex.read (by decide)) (lex.read (by decide)) (by decide)]
  simp (disch := decide) only [bind_eq_ok, pure_eq_ok, lex.expect, exists_const]
  cases x with
  | false =>
    constructor
    · rintro ⟨_, ⟨-, _, -, _, -, ⟨⟩, -⟩ | ⟨hc, -, rfl⟩⟩
      exact hc
    · intro hc
      exact ⟨_, .inr ⟨hc, rfl, rfl⟩⟩
  | true =>
    constructor
    · rintro ⟨_, ⟨hw, _, he, _, hc, -, rfl⟩ | ⟨-, ⟨⟩, -⟩⟩
      exact (hw.append he).append hc
    · intro ha
      obtain ⟨_, ha, hc⟩ := Cursor.ate_append.mp ha
      obtain ⟨_, hw, he⟩ := Cursor.ate_append.mp ha
      exact ⟨_, .inl ⟨hw, _, he, _, hc, rfl, rfl⟩⟩

theorem kind (lex : Lexer read expect) {α : Type} {k₁ k₂ k₃ : Reader NarError α} {a : α} : (do
      expect (ascii "(")
      expect (ascii "type")
      let nodeType ← read
      if nodeType = ascii "regular" then k₁
      else if nodeType = ascii "directory" then k₂
      else if nodeType = ascii "symlink" then k₃
      else throw (e nodeType) : Reader NarError α).run c = .ok (a, c₁) ↔
      ∃ c₂, (c.Ate (nodeOpen ++ token "regular") c₂ ∧ k₁.run c₂ = .ok (a, c₁)) ∨
        (c.Ate (nodeOpen ++ directoryOpen) c₂ ∧ k₂.run c₂ = .ok (a, c₁)) ∨
        (c.Ate (nodeOpen ++ token "symlink") c₂ ∧ k₃.run c₂ = .ok (a, c₁)) := by
  simp (disch := decide) only [bind_eq_ok, lex.expect,
    Takes.choose₃ (lex.read _) (lex.read _) (lex.read _), nodeOpen, directoryOpen,
    Cursor.ate_append]
  grind

end Lexer

theorem readTargetBytes_takes (word : Word s) : readTargetBytes.Takes (ascii s) (token s) :=
  fun _ _ => readTargetBytes_eq_ok.trans (and_iff_right word.2)

theorem bytesLexer : Lexer readTargetBytes expectToken where
  read word := readTargetBytes_takes word
  expect word := (readTargetBytes_takes word).alone

namespace LsOut

def append (out : LsOut) (es : List NarLsEntry) : LsOut :=
  ⟨out.entries ++ es, out.indexBytes + indexSize es⟩

def Room (out : LsOut) (es : List NarLsEntry) : Prop :=
  out.entries.length + es.length ≤ maxNarEntries ∧ out.indexBytes + indexSize es ≤ maxNarIndexBytes

def Grew (out : LsOut) (es : List NarLsEntry) (out' : LsOut) : Prop :=
  out.Room es ∧ out' = out.append es

theorem append_append : (out.append es).append es' = out.append (es ++ es') := by
  simp [append, add_assoc]

theorem room_append : out.Room (es ++ es') ↔ (out.append es).Room es' := by
  simp [Room, append, add_assoc]

theorem Room.left (h : out.Room (es ++ es')) : out.Room es := by
  unfold Room at h ⊢
  rw [length_append, indexSize_append] at h
  omega

theorem Grew.room (h : out.Grew es out') : out'.Room [] := by
  obtain ⟨hr, rfl⟩ := h
  rw [← room_append, append_nil]
  exact hr

theorem grew_nil (h : out.Room []) : out.Grew [] out' ↔ out' = out := by
  have hn : out.append [] = out := by simp [append]
  rw [Grew, hn]
  exact and_iff_right h

theorem grew_append :
    out.Grew (es ++ es') out' ↔ ∃ out1, out.Grew es out1 ∧ out1.Grew es' out' := by
  constructor
  · rintro ⟨hr, rfl⟩
    exact ⟨_, ⟨hr.left, rfl⟩, room_append.mp hr, (append_append).symm⟩
  · rintro ⟨_, ⟨-, rfl⟩, hr, rfl⟩
    exact ⟨room_append.mpr hr, append_append⟩

theorem push_eq_ok : out.push e = .ok out' ↔ out.Grew [e] out' := by
  have hb : indexSize [e] = e.path.length + e.target.length := by simp
  unfold push Grew Room append
  rw [length_singleton]
  split
  · exact iff_of_false nofun (by omega)
  split
  · exact iff_of_false nofun (by omega)
  · rw [Except.ok.injEq, eq_comm]
    exact ⟨fun h => ⟨by omega, h⟩, fun h => h.2⟩

end LsOut

theorem validateEntryNameBytes_eq_ok :
    validateEntryNameBytes name = .ok u ↔ validComponent name = true := by
  unfold validateEntryNameBytes
  split_ifs with h
  · exact iff_of_true rfl h
  · exact iff_of_false nofun h

theorem unsorted_eq_none : unsorted prev name = none ↔ ∀ p ∈ prev, p < name := by
  cases prev with
  | none | some p => simp [unsorted]

theorem sorted_eq_ok {e : Bytes → NarError} : (match unsorted prev name with
    | some p => throw (e p)
    | none => k : Reader NarError α).run c = .ok (a, c₁) ↔
    (∀ p ∈ prev, p < name) ∧ k.run c = .ok (a, c₁) := by
  rw [← unsorted_eq_none]
  cases unsorted prev name with
  | none => simp
  | some p => exact iff_of_false nofun nofun

theorem get_eq_ok : (get : Reader NarError Cursor).run c = .ok (x, c₁) ↔ x = c ∧ c = c₁ := by
  constructor
  · rintro ⟨⟩
    exact ⟨rfl, rfl⟩
  · rintro ⟨rfl, rfl⟩
    rfl

theorem lsExecutable_eq_ok : lsExecutable.run c = .ok (x, c₁) ↔ c.Ate (marker x) c₁ :=
  bytesLexer.executable

theorem lsRegular_eq_ok (ho : c.Ate (nodeOpen ++ token "regular") c₂) :
    (lsRegular blake3 path out).run c₂ = .ok (out', c₁) ↔
      ∃ l : Leaf Bytes, l.kind = .regular ∧ l.Good ∧ c₂.Ate l.body c₁ ∧
        out.Grew [(l.map (refOf blake3)).entry path c.pos] out' := by
  have hpo {len : UInt64} {x : Bool} {c3 : Cursor} (hx : c₂.Ate (marker x ++ writeU64 len) c3) :
      c3.pos = c.pos + nodeOpen.length + (regularHeader x len).length := by
    rw [hx.2, ho.2, regularHeader, marker]
    simp only [length_append]
    omega
  simp (disch := decide) only [lsRegular, bind_eq_ok, lsExecutable_eq_ok, readU64_eq_ok,
    get_eq_ok, readExact_eq_ok, consumePadding_eq_ok, bytesLexer.expect, lift_eq_ok,
    exists_const, LsOut.push_eq_ok]
  constructor
  · rintro ⟨x, c3, hx, size, c4, hs, _, _, ⟨rfl, rfl⟩, contents, c5, ⟨hl, hc⟩,
      c6, hp, _, hcl, hg, rfl⟩
    refine ⟨.regular contents x, rfl, hl.trans_lt size.toNat_lt, ?_, ?_⟩
    · rw [Leaf.body, writeBytes, hl, UInt64.ofNat_toNat]
      exact hx.append ((hs.append (hc.append hp)).append hcl)
    · rw [Leaf.map, refOf, hl, UInt64.ofNat_toNat, Leaf.entry, ← hpo (hx.append hs)]
      exact hg
  · rintro ⟨l, hk, hgo, ha, hg⟩
    cases l with
    | symlink target => cases hk
    | regular contents x =>
      obtain ⟨c3, hx, ha⟩ := Cursor.ate_append.mp ha
      obtain ⟨c6, ha, hcl⟩ := Cursor.ate_append.mp ha
      obtain ⟨c4, hs, ha⟩ := Cursor.ate_append.mp ha
      obtain ⟨c5, hc, hp⟩ := Cursor.ate_append.mp ha
      have hle := UInt64.toNat_ofNat_of_lt' hgo
      rw [Leaf.map, refOf, Leaf.entry, ← hpo (hx.append hs)] at hg
      exact ⟨x, c3, hx, _, c4, hs, c4, c4, ⟨rfl, rfl⟩, contents, c5, ⟨hle.symm, hc⟩,
        c6, hle.symm ▸ hp, c₁, hcl, hg, rfl⟩

theorem lsSymlink_eq_ok (blake3 : Bytes → Digest) (pos : Nat) :
    (lsSymlink path out).run c = .ok (out', c₁) ↔
      ∃ l : Leaf Bytes, l.kind = .symlink ∧ l.Good ∧ c.Ate l.body c₁ ∧
        out.Grew [(l.map (refOf blake3)).entry path pos] out' := by
  simp (disch := decide) only [lsSymlink, bind_eq_ok, bytesLexer.expect,
    readTargetBytes_eq_ok, lift_eq_ok, exists_const, LsOut.push_eq_ok]
  constructor
  · rintro ⟨c₂, hw, target, c3, ⟨hl, hr⟩, _, hc, hg, rfl⟩
    exact ⟨.symlink target, rfl, hl, (hw.append hr).append hc, hg⟩
  · rintro ⟨l, hk, hgo, ha, hg⟩
    cases l with
    | regular contents x => cases hk
    | symlink target =>
      obtain ⟨c3, ha, hc⟩ := Cursor.ate_append.mp ha
      obtain ⟨c₂, hw, hr⟩ := Cursor.ate_append.mp ha
      exact ⟨c₂, hw, target, c3, ⟨hgo, hr⟩, c₁, hc, hg, rfl⟩

theorem lsNode_succ_eq_ok : (lsNode blake3 (fuel + 1) path depth out).run c = .ok (out', c₁) ↔
    depth ≤ maxNarDepth ∧
      ((∃ l : Leaf Bytes, l.Good ∧ c.Ate l.encode c₁ ∧
          out.Grew [(l.map (refOf blake3)).entry path c.pos] out') ∨
        ∃ out1 c₂, c.Ate (nodeOpen ++ directoryOpen) c₂ ∧ out.Grew [dirEntry path] out1 ∧
          (lsEntries blake3 fuel path depth 0 none out1).run c₂ = .ok (out', c₁)) := by
  simp only [lsNode, throw_bind, ite_eq_ok,
    throw_eq_ok, and_false, false_or, not_lt, bytesLexer.kind,
    lsSymlink_eq_ok blake3 c.pos, bind_eq_ok, lift_eq_ok, LsOut.push_eq_ok]
  refine and_congr_right fun _ => ?_
  constructor
  · rintro ⟨c₂, ⟨hh, hr⟩ | ⟨hh, out1, _, ⟨hg, rfl⟩, hr⟩ | ⟨hh, l, hk, hgo, ha, hg⟩⟩
    · obtain ⟨l, hk, hgo, ha, hg⟩ := (lsRegular_eq_ok hh).mp hr
      exact .inl ⟨l, hgo, l.encode_eq ▸ hk ▸ hh.append ha, hg⟩
    · exact .inr ⟨out1, c₂, hh, hg, hr⟩
    · exact .inl ⟨l, hgo, l.encode_eq ▸ hk ▸ hh.append ha, hg⟩
  · rintro (⟨l, hgo, ha, hg⟩ | ⟨out1, c₂, hh, hg, hr⟩)
    · rw [l.encode_eq] at ha
      obtain ⟨c₂, hh, ha⟩ := Cursor.ate_append.mp ha
      cases hk : l.kind with
      | regular =>
        rw [hk] at hh
        exact ⟨c₂, .inl ⟨hh, (lsRegular_eq_ok hh).mpr ⟨l, hk, hgo, ha, hg⟩⟩⟩
      | symlink =>
        rw [hk] at hh
        exact ⟨c₂, .inr (.inr ⟨hh, l, hk, hgo, ha, hg⟩)⟩
      | directory => cases l <;> cases hk
    · exact ⟨c₂, .inr (.inl ⟨hh, out1, c₂, ⟨hg, rfl⟩, hr⟩)⟩

theorem lsEntries_succ_eq_ok :
    (lsEntries blake3 (fuel + 1) path depth count prev out).run c = .ok (out', c₁) ↔
      count < maxDirectoryEntries ∧ ((c.Ate (token ")") c₁ ∧ out' = out) ∨
        ∃ name out1 c₂ c3 c4, ValidName name ∧ (∀ p ∈ prev, p < name) ∧ c.Ate (entryOpen name) c₂ ∧
          (lsNode blake3 fuel (childPath path name) (depth + 1) out).run c₂ = .ok (out1, c3) ∧
          c3.Ate entryClose c4 ∧
          (lsEntries blake3 fuel path depth (count + 1) (some name) out1).run c4 =
            .ok (out', c₁)) := by
  simp (disch := decide) only [lsEntries, throw_bind, ite_eq_ok, throw_eq_ok, and_false, false_or,
    not_le, Takes.choose₂ (bytesLexer.read _) (bytesLexer.read _), bind_eq_ok,
    bytesLexer.expect, readNameBytes_eq_ok, lift_eq_ok, validateEntryNameBytes_eq_ok,
    pure_eq_ok, exists_const]
  refine and_congr_right fun _ => ?_
  constructor
  · rintro ⟨_, ⟨hc, rfl, rfl⟩ | ⟨ht, _, ho, _, hl, name, _, ⟨hle, hrd⟩, _, ⟨hv, rfl⟩, hn⟩⟩
    · exact .inl ⟨hc, rfl⟩
    · obtain ⟨hs, hn⟩ := sorted_eq_ok.mp hn
      simp (disch := decide) only [bind_eq_ok, bytesLexer.expect, exists_const] at hn
      obtain ⟨c₂, hnd, out1, c3, hls, c4, hc, hr⟩ := hn
      exact .inr ⟨name, out1, c₂, c3, c4, ⟨hv, hle⟩, hs,
        ht.append (ho.append (hl.append (hrd.append hnd))), hls, hc, hr⟩
  · rintro (⟨hc, rfl⟩ | ⟨name, out1, c₂, c3, c4, hn, hs, ha, hls, hc, hr⟩)
    · exact ⟨c₁, .inl ⟨hc, rfl, rfl⟩⟩
    · obtain ⟨d1, ht, ha⟩ := Cursor.ate_append.mp ha
      obtain ⟨d2, ho, ha⟩ := Cursor.ate_append.mp ha
      obtain ⟨d3, hl, ha⟩ := Cursor.ate_append.mp ha
      obtain ⟨d4, hrd, hnd⟩ := Cursor.ate_append.mp ha
      refine ⟨d1, .inr ⟨ht, d2, ho, d3, hl, name, d4, ⟨hn.2, hrd⟩, d4,
        ⟨hn.1, rfl⟩, sorted_eq_ok.mpr ⟨hs, ?_⟩⟩⟩
      simp (disch := decide) only [bind_eq_ok, bytesLexer.expect, exists_const]
      exact ⟨c₂, hnd, out1, c3, hls, c4, hc, hr⟩

theorem grew_dir (ho : c.Ate (nodeOpen ++ directoryOpen) c₂) :
    out.Grew (((Node.dir kids).map (refOf blake3)).listing path c.pos) out' ↔
      ∃ out1, out.Grew [dirEntry path] out1 ∧
        out1.Grew (listing path c₂.pos (kids.map (Leaf.map (refOf blake3)))) out' := by
  rw [← LsOut.grew_append, ho.2]
  rfl

variable {t : Node Bytes}

theorem grew_cons (hg : t.Good) (ho : c.Ate (entryOpen name) c₂)
    (hn : c₂.Ate t.encode c3) (hc : c3.Ate entryClose c4) :
    out.Grew (listing path c.pos ((t.cons name rest).map (Leaf.map (refOf blake3)))) out' ↔
      ∃ out1, out.Grew ((t.map (refOf blake3)).listing (childPath path name) c₂.pos) out1 ∧
        out1.Grew (listing path c4.pos (rest.map (Leaf.map (refOf blake3)))) out' := by
  rw [← LsOut.grew_append, map_cons, listing_cons, hc.2, hn.2, ho.2, Node.length_encode blake3 hg]

theorem good_iff_all : t.Good ↔ t.All ValidName Leaf.Good := by
  cases t <;> rfl

theorem ls_eq_ok :
    (∀ path depth out c out' c₁, (lsNode blake3 fuel path depth out).run c = .ok (out', c₁) ↔
        ∃ t, Taken ValidName Leaf.Good fuel depth c t c₁ ∧
          out.Grew ((t.map (refOf blake3)).listing path c.pos) out') ∧
    ∀ path depth count prev out c out' c₁, out.Room [] →
      ((lsEntries blake3 fuel path depth count prev out).run c = .ok (out', c₁) ↔
        ∃ f, EntriesTaken ValidName Leaf.Good fuel depth count prev c f c₁ ∧
          out.Grew (listing path c.pos (f.map (Leaf.map (refOf blake3)))) out') := by
  induction fuel with
  | zero =>
    refine ⟨fun path depth out c out' c₁ => ?_, fun path depth count prev out c out' c₁ _ => ?_⟩
    · exact iff_of_false nofun fun ⟨t, ht, _⟩ => ht.fuel_pos.ne rfl
    · exact iff_of_false nofun fun ⟨f, hf, _⟩ => hf.fuel_pos.ne rfl
  | succ fuel ih =>
    obtain ⟨ihNode, ihEntries⟩ := ih
    refine ⟨fun path depth out c out' c₁ => ?_, fun path depth count prev out c out' c₁ hro => ?_⟩
    · rw [lsNode_succ_eq_ok]
      constructor
      · rintro ⟨hd, ⟨l, hgo, ha, hg⟩ | ⟨out1, c₂, ho, hg, hr⟩⟩
        · exact ⟨.leaf l, taken_leaf.mpr ⟨hd, hgo, ha⟩, hg⟩
        · obtain ⟨kids, hk, hgr⟩ := (ihEntries _ _ _ _ _ _ _ _ hg.room).mp hr
          exact ⟨.dir kids, taken_dir.mpr ⟨hd, c₂, ho, hk⟩, (grew_dir ho).mpr ⟨out1, hg, hgr⟩⟩
      · rintro ⟨t, ht, hg⟩
        cases t with
        | leaf l =>
          obtain ⟨hd, hgo, ha⟩ := taken_leaf.mp ht
          exact ⟨hd, .inl ⟨l, hgo, ha, hg⟩⟩
        | dir kids =>
          obtain ⟨hd, c₂, ho, hk⟩ := taken_dir.mp ht
          obtain ⟨out1, hg, hgr⟩ := (grew_dir ho).mp hg
          exact ⟨hd, .inr ⟨out1, c₂, ho, hg,
            (ihEntries _ _ _ _ _ _ _ _ hg.room).mpr ⟨kids, hk, hgr⟩⟩⟩
    · rw [lsEntries_succ_eq_ok]
      constructor
      · rintro ⟨hc, ⟨ha, hou⟩ | ⟨name, out1, c₂, c3, c4, hn, hp, ho, hnd, hcl, hr⟩⟩
        · exact ⟨.nil, entriesTaken_nil.mpr ⟨hc, ha⟩, (LsOut.grew_nil hro).mpr hou⟩
        · obtain ⟨t, ht, hg⟩ := (ihNode _ _ _ _ _ _).mp hnd
          obtain ⟨f, hf, hgr⟩ := (ihEntries _ _ _ _ _ _ _ _ hg.room).mp hr
          exact ⟨t.cons name f, entriesTaken_cons.mpr ⟨hc, c₂, c3, c4, hn, hp, ho, ht, hcl, hf⟩,
            (grew_cons (good_iff_all.mpr ht.all) ho ht.ate hcl).mpr ⟨out1, hg, hgr⟩⟩
      · rintro ⟨f, hf, hg⟩
        rcases Node.exists_cons f with rfl | ⟨name, t, rest, rfl⟩
        · obtain ⟨hc, ha⟩ := entriesTaken_nil.mp hf
          exact ⟨hc, .inl ⟨ha, (LsOut.grew_nil hro).mp hg⟩⟩
        · obtain ⟨hc, c₂, c3, c4, hn, hp, ho, ht, hcl, hf⟩ :=
            entriesTaken_cons.mp hf
          obtain ⟨out1, hg, hgr⟩ :=
            (grew_cons (good_iff_all.mpr ht.all) ho ht.ate hcl).mp hg
          exact ⟨hc, .inr ⟨name, out1, c₂, c3, c4, hn, hp, ho,
            (ihNode _ _ _ _ _ _).mpr ⟨t, ht, hg⟩, hcl,
            (ihEntries _ _ _ _ _ _ _ _ hg.room).mpr ⟨rest, hf, hgr⟩⟩⟩

theorem fits_iff (h : t.Good) : (t.map (refOf blake3)).Fits d ↔ t.Shape d := by
  cases t with
  | leaf l => exact iff_of_true h.sized trivial
  | dir kids =>
    change (_ ∧ _ ∧ _) ↔ _
    rw [Forest.ordered_map, Forest.within_map]
    exact and_iff_right (all_map h)

theorem Node.narrow_of_index
    (h : (index (t.map (refOf blake3))).length ≤ maxNarEntries) : t.Narrow maxDirectoryEntries := by
  cases t with
  | leaf l => trivial
  | dir kids =>
    have hc : kids.count + 1 ≤ maxDirectoryEntries := by
      rw [index, map, listing, length_cons, length_listing, Forest.count_map] at h
      exact h
    exact ⟨lt_of_le_of_lt Forest.length_names_le hc, Forest.narrow_of_count (Nat.le_of_succ_le hc)⟩

theorem narLs_eq_ok : narLs blake3 data = .ok (es, c) ↔
    ∃ t : Node Bytes, t.Good ∧ (t.map (refOf blake3)).Allowed ∧
      Cursor.Ate ⟨data, 0⟩ (archive t) c ∧ es = index (t.map (refOf blake3)) := by
  have hm : readTargetBytes.Takes narMagic magic := readTargetBytes_takes (by decide)
  have hp {c₂ : Cursor} (hto : Cursor.Ate ⟨data, 0⟩ magic c₂) : c₂.pos = magic.length :=
    hto.2.trans (zero_add _)
  refine hm.only.trans ?_
  simp only [bind_eq_ok, pure_eq_ok, (ls_eq_ok).1]
  constructor
  · rintro ⟨c₂, hto, out', _, ⟨t, ht, hr, ho⟩, rfl, rfl⟩
    have hg := good_iff_all.mpr ht.all
    rw [hp hto] at hr ho
    refine ⟨t, hg, ⟨(fits_iff hg).mpr ht.shape, ?_, ?_⟩, hto.append ht.ate, ?_⟩
    · exact (Nat.le_add_left _ _).trans hr.1
    · exact (Nat.le_add_left _ _).trans hr.2
    · rw [ho]
      rfl
  · rintro ⟨t, hg, ha, hat, rfl⟩
    have hf := fuel_le_of_ate hat
    obtain ⟨c₂, hto, hn⟩ := Cursor.ate_append.mp hat
    refine ⟨c₂, hto, ({} : LsOut).append (index (t.map (refOf blake3))), c, ⟨t, ?_, ?_⟩, rfl, rfl⟩
    · exact ⟨Nat.zero_le _, good_iff_all.mp hg, (fits_iff hg).mp ha.fits,
        Node.narrow_of_index ha.entries, hf, hn⟩
    · rw [hp hto]
      refine ⟨⟨?_, ?_⟩, rfl⟩
      · rw [length_nil, zero_add]
        exact ha.entries
      · rw [zero_add]
        exact ha.bytes

end RioBuild.Nar
