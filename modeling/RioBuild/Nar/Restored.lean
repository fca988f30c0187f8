import RioBuild.Nar.Canonical
import RioBuild.Nar.FileSystem

namespace RioBuild.Nar

open Lib Nar.Frame List

variable {c c₁ : Cursor} {name : Bytes} {t : Node Bytes} {siblings rest : Entries Bytes}

theorem find?_cons : find? n (t.cons name rest) = if name = n then some t else find? n rest := by
  cases t <;> rfl

theorem place_cons : place n u (t.cons name rest) =
    if n < name then u.cons n (t.cons name rest) else t.cons name (place n u rest) := by
  cases t <;> rfl

theorem mem_names_of_find? (h : find? n f = some t) : n ∈ f.names := by
  induction f using Node.consInduction with
  | nil => cases h
  | cons m u rest ih =>
    rw [find?_cons] at h
    rw [names_cons, mem_cons]
    split_ifs at h with hm
    · exact .inl hm.symm
    · exact .inr (ih h)

variable {f : Entries Bytes}

theorem find?_place (h : name ∉ f.names) :
    find? n (place name t f) = if name = n then some t else find? n f := by
  induction f using Node.consInduction with
  | nil => exact find?_cons
  | cons m u rest ih =>
    rw [names_cons, mem_cons, not_or] at h
    rw [place_cons]
    split
    · exact find?_cons
    · rw [find?_cons, find?_cons, ih h.2]
      by_cases hm : m = n
      · rw [if_pos hm, if_neg (hm ▸ h.1), if_pos hm]
      · rw [if_neg hm, if_neg hm]

theorem place_last (h : ∀ m ∈ f.names, m < name) :
    place name t f = f.append (t.cons name .nil) := by
  induction f using Node.consInduction with
  | nil => rfl
  | cons m u rest ih =>
    rw [names_cons] at h
    obtain ⟨hm, hr⟩ := forall_mem_cons.mp h
    rw [place_cons, if_neg hm.asymm, ih hr]
    cases u <;> rfl

theorem copyChunks_eq (fuel remaining : Nat) (done rest : Bytes)
    (h : remaining ≤ fuel) : copyChunks short fuel remaining done rest =
      if remaining ≤ rest.length then some (done ++ rest.take remaining, rest.drop remaining)
      else none := by
  induction fuel generalizing remaining done rest with
  | zero =>
    obtain rfl := Nat.le_zero.mp h
    simp [copyChunks]
  | succ fuel ih =>
    cases remaining with
    | zero => simp [copyChunks]
    | succ remaining =>
      rw [copyChunks]
      -- The read gives between one byte and what is left to read, if there is a byte.
      have hrd : 1 ≤ min (max 1 (short done.length)) (min streamChunk (remaining + 1)) ∧
          min (max 1 (short done.length)) (min streamChunk (remaining + 1)) ≤ remaining + 1 := by
        have hc : 1 ≤ streamChunk := by decide
        omega
      generalize min (max 1 (short done.length)) (min streamChunk (remaining + 1)) = n at hrd
      cases hr : rest with
      | nil => simp
      | cons b rest' =>
        rw [← hr]
        have hp : 1 ≤ rest.length := by rw [hr, length_cons]; omega
        have hb : rest.take n = rest.take (rest.take n).length := by
          rw [length_take, take_eq_take_min]
        have hl : (rest.take n).length = min n rest.length := length_take
        rw [if_neg (fun hn => by rw [hn] at hl; simp at hl; omega),
          ih _ _ _ (by omega), length_drop]
        by_cases hle : remaining + 1 ≤ rest.length
        · rw [if_pos (by omega), if_pos hle, drop_drop, append_assoc]
          have hs : (rest.take n).length + (remaining + 1 - (rest.take n).length) =
              remaining + 1 := by omega
          congr 3
          conv_rhs => rw [← hs, take_add, ← hb]
        · rw [if_neg (by omega), if_neg hle]

theorem copyContents_eq : copyContents short len = readExact len := by
  funext c
  unfold copyContents readExact Cursor.readExact
  rw [copyChunks_eq _ _ _ _ le_rfl]
  by_cases hl : len ≤ c.rest.length
  · rw [if_pos hl, if_pos hl]
    rfl
  · rw [if_neg hl, if_neg hl]

def FileName (name : Bytes) : Prop := validComponent name = true ∧ name.length ≤ nameMax

def Leaf.OnDisk : Leaf Bytes → Prop
  | regular contents _ => contents.length < 2 ^ 64
  | symlink target => target ≠ [] ∧ target.length < pathMax ∧ 0 ∉ target

def Leaf.IsText : Leaf Bytes → Prop
  | regular _ _ => True
  | symlink target => validUtf8 target = true

def Node.Ordered : Node Bytes → Prop
  | leaf _ => True
  | dir kids => kids.Ordered (· < ·)

def Node.Within (d : Nat) : Node Bytes → Prop
  | leaf _ => True
  | dir kids => kids.Within d

structure Node.OnDisk (t : Node Bytes) : Prop where
  all : t.All FileName Leaf.OnDisk
  ordered : t.Ordered

structure Node.Archivable (t : Node Bytes) : Prop where
  onDisk : t.OnDisk
  text : t.All (validUtf8 · = true) Leaf.IsText
  within : t.Within maxNarDepth
  narrow : t.Narrow maxDirectoryEntries

section Decide

instance (name : Bytes) : Decidable (FileName name) := inferInstanceAs (Decidable (_ ∧ _))

instance (l : Leaf Bytes) : Decidable l.OnDisk :=
  match l with
  | .regular contents _ => inferInstanceAs (Decidable (contents.length < 2 ^ 64))
  | .symlink target =>
    inferInstanceAs (Decidable (target ≠ [] ∧ target.length < pathMax ∧ 0 ∉ target))

instance (l : Leaf Bytes) : Decidable l.IsText :=
  match l with
  | .regular _ _ => .isTrue trivial
  | .symlink target => inferInstanceAs (Decidable (validUtf8 target = true))

instance (t : Node Bytes) : Decidable t.Ordered :=
  match t with
  | .leaf _ => .isTrue trivial
  | .dir kids => inferInstanceAs (Decidable (kids.Ordered (· < ·)))

instance (d : Nat) (t : Node Bytes) : Decidable (t.Within d) :=
  match t with
  | .leaf _ => .isTrue trivial
  | .dir kids => inferInstanceAs (Decidable (kids.Within d))

end Decide

theorem shape_iff : t.Shape d ↔ t.Ordered ∧ t.Within d := by
  cases t with
  | leaf l => exact iff_of_true trivial ⟨trivial, trivial⟩
  | dir kids => exact Iff.rfl

theorem Node.All.imp (h : t.All p q) (hp : ∀ n, p n → p' n) (hq : ∀ l, q l → q' l) :
    t.All p' q' := by
  cases t with
  | leaf l => exact hq l h
  | dir kids => exact Forest.All.imp h hp hq

theorem Node.All.and (h : t.All p q) (h' : t.All p' q') :
    t.All (fun n => p n ∧ p' n) fun l => q l ∧ q' l := by
  cases t with
  | leaf l => exact ⟨h, h'⟩
  | dir kids => exact Forest.All.and h h'

def Free (siblings : Entries Bytes) (name : Bytes) : Prop :=
  name.length ≤ nameMax ∧ name ∉ siblings.names

theorem create_eq_ok : create siblings name = .ok u ↔ Free siblings name := by
  unfold create Free
  split
  · rename_i hl
    exact iff_of_false nofun fun h => absurd h.1 (not_le.mpr hl)
  split
  · rename_i hm
    exact iff_of_false nofun fun h => h.2 hm
  · rename_i hl hm
    exact iff_of_true rfl ⟨Nat.le_of_not_lt hl, hm⟩

theorem writeBytes_eq (h : contents.length = len.toNat) :
    writeBytes contents = writeU64 len ++ (contents ++ padding len.toNat) := by
  rw [writeBytes, h, UInt64.ofNat_toNat]

theorem restoreRegular_eq_ok : (restoreRegular short siblings name).run c = .ok (l, c₁) ↔
    l.kind = .regular ∧ Free siblings name ∧ (l.OnDisk ∧ l.IsText) ∧ c.Ate l.body c₁ := by
  simp (disch := decide) only [restoreRegular, copyContents_eq, Reader.bind_eq_ok,
    readExecutable_eq_ok, readU64_eq_ok, Reader.lift_eq_ok, create_eq_ok, readExact_eq_ok,
    consumePadding_eq_ok, textLexer.expect, Reader.pure_eq_ok, exists_const]
  constructor
  · rintro ⟨x, c2, hx, len, c3, hle, _, ⟨hf, rfl⟩, contents, c4, ⟨hl, hc⟩, c5, hp, _, hcl, rfl, rfl⟩
    refine ⟨rfl, hf, ⟨?_, trivial⟩, ?_⟩
    · change contents.length < 2 ^ 64
      rw [hl]
      exact len.toNat_lt
    · rw [Leaf.body, writeBytes_eq hl]
      exact hx.append ((hle.append (hc.append hp)).append hcl)
  · rintro ⟨hk, hf, ⟨hd, -⟩, ha⟩
    cases l with
    | symlink target => cases hk
    | regular contents x =>
      have hl := (UInt64.toNat_ofNat_of_lt' hd).symm
      rw [Leaf.body, writeBytes_eq hl] at ha
      obtain ⟨c2, hx, ha⟩ := Cursor.ate_append.mp ha
      obtain ⟨c5, ha, hcl⟩ := Cursor.ate_append.mp ha
      obtain ⟨c3, hle, ha⟩ := Cursor.ate_append.mp ha
      obtain ⟨c4, hc, hp⟩ := Cursor.ate_append.mp ha
      exact ⟨x, c2, hx, _, c3, hle, c3, ⟨hf, rfl⟩, contents, c4, ⟨hl, hc⟩, c5, hp,
        c₁, hcl, rfl, rfl⟩

theorem restoreSymlink_eq_ok : (restoreSymlink siblings name).run c = .ok (l, c₁) ↔
    l.kind = .symlink ∧ Free siblings name ∧ (l.OnDisk ∧ l.IsText) ∧ c.Ate l.body c₁ := by
  simp (disch := decide) only [restoreSymlink, Reader.bind_eq_ok, readTarget_eq_ok,
    Reader.throw_bind, Reader.ite_eq_ok, Reader.throw_eq_ok, and_false, false_or, not_le,
    contains_iff_mem, Reader.lift_eq_ok, create_eq_ok, textLexer.expect, Reader.pure_eq_ok,
    exists_const]
  constructor
  · rintro ⟨target, c2, ⟨⟨hutf8, -⟩, ht⟩, hn, hni, hl, _, ⟨hf, rfl⟩, _, hc, rfl, rfl⟩
    exact ⟨rfl, hf, ⟨⟨hni, hl, hn⟩, hutf8⟩, ht.append hc⟩
  · rintro ⟨hk, hf, ⟨hd, hutf8⟩, ha⟩
    cases l with
    | regular contents x => cases hk
    | symlink target =>
      obtain ⟨hni, hl, hn⟩ := hd
      obtain ⟨c2, ht, hc⟩ := Cursor.ate_append.mp ha
      exact ⟨target, c2, ⟨⟨hutf8, le_of_lt hl⟩, ht⟩, hn, hni, hl, c2, ⟨hf, rfl⟩, c₁, hc, rfl, rfl⟩

theorem restorer_spec (short : Nat → Nat) :
    (restorer short).Spec Free (·.length ≤ nameMax) fun l => l.OnDisk ∧ l.IsText where
  regular := restoreRegular_eq_ok
  symlink := restoreSymlink_eq_ok
  directory := create_eq_ok
  can_iff last := and_iff_left fun hm => lt_irrefl _ (last _ hm)
  push _ last := place_last last

theorem archivable_iff :
    t.Archivable ↔ t.Admitted (·.length ≤ nameMax) fun l => l.OnDisk ∧ l.IsText := by
  constructor
  · rintro ⟨⟨ha, ho⟩, ht, hw, hn⟩
    refine ⟨(ha.and ht).imp ?_ fun _ hl => hl, shape_iff.mpr ⟨ho, hw⟩, hn⟩
    rintro name ⟨⟨hv, hle⟩, hutf8⟩
    exact ⟨⟨⟨hv, hle.trans (by decide)⟩, hutf8⟩, hle⟩
  · rintro ⟨ha, hs, hn⟩
    obtain ⟨ho, hw⟩ := shape_iff.mp hs
    refine ⟨⟨ha.imp ?_ fun _ hl => hl.1, ho⟩, ha.imp ?_ fun _ hl => hl.2, hw, hn⟩
    · rintro name ⟨⟨⟨hv, -⟩, -⟩, hle⟩
      exact ⟨hv, hle⟩
    · rintro name ⟨⟨-, hutf8⟩, -⟩
      exact hutf8

theorem restorePathStreaming_eq_ok : restorePathStreaming short dir dest data = .ok (dir', c) ↔
    Free dir dest ∧ ∃ t : Node Bytes, t.Archivable ∧ Cursor.Ate ⟨data, 0⟩ (archive t) c ∧
        place dest t dir = dir' := by
  unfold restorePathStreaming
  constructor
  · intro hr
    cases hrd : readArchive (restorer short) dir dest data with
    | error e =>
      rw [hrd] at hr
      cases hr
    | ok x =>
      obtain ⟨t, c₁⟩ := x
      rw [hrd] at hr
      cases hr
      obtain ⟨hf, ht, ha⟩ := (readArchive_eq_ok (restorer_spec short)).mp hrd
      exact ⟨hf, t, archivable_iff.mpr ht, ha, rfl⟩
  · rintro ⟨hf, t, ht, ha, rfl⟩
    rw [(readArchive_eq_ok (restorer_spec short)).mpr ⟨hf, archivable_iff.mp ht, ha⟩]
    rfl

theorem streamRegular_eq (disk : Disk) (path : List Bytes) (executable : Bool)
    (h : contents.length < 2 ^ 64) : streamRegular disk path contents executable =
      .ok (regularHeader executable (UInt64.ofNat contents.length) ++ contents ++
        contentsPadding (UInt64.ofNat contents.length)) := by
  have hl := UInt64.toNat_ofNat_of_lt' h
  unfold streamRegular
  simp only
  rw [copyChunks_eq _ _ _ _ le_rfl, hl, if_pos le_rfl, take_length, nil_append]

structure Node.Dumpable (d : Nat) (t : Node Bytes) : Prop where
  all : t.All (fun n => isDot n = false ∧ validUtf8 n = true) fun l => l.OnDisk ∧ l.IsText
  shape : t.Shape d
  narrow : t.Narrow maxDirectoryEntries

theorem FileName.isDot_eq (h : FileName name) : isDot name = false := by
  have hv := h.1
  simp only [validComponent, Bool.and_eq_true, decide_eq_true_eq] at hv
  obtain ⟨⟨⟨⟨-, hdo⟩, hd⟩, -⟩, -⟩ := hv
  exact decide_eq_false fun hn => hn.elim hdo hd

theorem Node.Archivable.dumpable (h : t.Archivable) : t.Dumpable maxNarDepth where
  all := (h.onDisk.all.and h.text).imp (fun _ hn => ⟨hn.1.isDot_eq, hn.2⟩) fun _ hl => hl
  shape := shape_iff.mpr ⟨h.onDisk.ordered, h.within⟩
  narrow := h.narrow

theorem Node.Dumpable.child (h : (Node.dir kids).Dumpable d) (hf : find? name kids = some t) :
    0 < d ∧ t.Dumpable (d - 1) := by
  obtain ⟨ha, hs, -, hn⟩ := h
  induction kids using consInduction with
  | nil => cases hf
  | cons n u rest ih =>
    obtain ⟨-, hu, ha⟩ := all_cons.mp ha
    obtain ⟨-, hp, hus, hs⟩ := shape_cons.mp hs
    obtain ⟨hun, hn⟩ := narrow_cons.mp hn
    rw [find?_cons] at hf
    split at hf
    · cases hf
      exact ⟨hp, hu, hus, hun⟩
    · exact ih hf ha hs hn

theorem streamEntries_eq (ho : f.Ordered (· < ·)) (ht : ∀ n ∈ f.names, validUtf8 n = true)
    (hc : ∀ n t, find? n f = some t → streamChild n = .ok t.encode) :
    streamEntries streamChild f.names = .ok (encodeEntries f) := by
  induction f using Node.consInduction with
  | nil => rfl
  | cons n t rest ih =>
    obtain ⟨hlt, ho⟩ : (∀ m ∈ rest.names, n < m) ∧ rest.Ordered (· < ·) := by
      cases t with
      | leaf l => exact ho
      | dir kids => exact ⟨ho.1, ho.2.2⟩
    rw [names_cons] at ht ⊢
    obtain ⟨hn, ht⟩ := forall_mem_cons.mp ht
    have hr := ih ho ht fun m u hf => hc m u <| by
      rw [find?_cons, if_neg (hlt m (mem_names_of_find? hf)).ne, hf]
    rw [streamEntries, if_pos hn, hc n t (by rw [find?_cons, if_pos rfl]), hr, encodeEntries_cons]
    simp only [← append_assoc]
    rfl

variable {kids : Entries Bytes}

theorem listing_perm (disk : Disk) (path : List Bytes) (h : ∀ n ∈ kids.names, isDot n = false) :
    ((disk.listing path kids).filter fun n => !isDot n).Perm kids.names := by
  obtain ⟨dots, hdo, hp⟩ := disk.lists path kids
  refine (hp.filter _).trans ?_
  have hno : dots.filter (fun n => !isDot n) = [] :=
    filter_eq_nil_iff.mpr fun d hd => by rw [hdo d hd]; decide
  have hk : kids.names.filter (fun n => !isDot n) = kids.names :=
    filter_eq_self.mpr fun n hn => by rw [h n hn]; rfl
  rw [filter_append, hno, hk, nil_append]

theorem insertionSort_listing {names : List Bytes}
    (h : names.Perm kids.names) (ho : kids.Ordered (· < ·)) :
    names.insertionSort (· ≤ ·) = kids.names :=
  ((perm_insertionSort _ names).trans h).eq_of_pairwise' (pairwise_insertionSort _ names)
    (ho.pairwise.imp le_of_lt)

theorem names_of_all (h : f.All p q) : ∀ n ∈ f.names, p n := by
  induction f using Node.consInduction with
  | nil => exact nofun
  | cons n t rest ih =>
    obtain ⟨hn, -, hr⟩ := all_cons.mp h
    rw [names_cons]
    exact forall_mem_cons.mpr ⟨hn, ih hr⟩

theorem streamDirectory_eq (disk : Disk) (path : List Bytes) (h : (Node.dir kids).Dumpable d)
    (hc : ∀ n t, find? n kids = some t → streamChild n = .ok t.encode) :
    streamDirectory disk path kids streamChild = .ok (directoryOpen ++ encodeEntries kids) := by
  obtain ⟨ho, -⟩ := h.shape
  have hna := names_of_all h.all
  have hp := listing_perm disk path fun n hn => (hna n hn).1
  unfold streamDirectory
  simp only
  rw [hp.length_eq, if_neg (not_le.mpr h.narrow.1), insertionSort_listing hp ho,
    streamEntries_eq ho (fun n hn => (hna n hn).2) hc]
  rfl

theorem streamNode_eq (disk : Disk) (left : Nat) (parent : Entries Bytes) (name : Bytes)
    (path : List Bytes) (t : Node Bytes) (hl : 0 < left) (hf : find? name parent = some t)
    (ht : t.Dumpable (left - 1)) : streamNode disk left parent name path = .ok t.encode := by
  induction left generalizing parent name path t with
  | zero => exact absurd hl (lt_irrefl 0)
  | succ left ih =>
    rw [streamNode, hf]
    cases t with
    | leaf l =>
      obtain ⟨hd, hte⟩ := ht.all
      cases l with
      | regular contents executable =>
        rw [streamOpened, streamRegular_eq disk path executable hd, Node.encode, Leaf.encode]
        simp only [← append_assoc]
        rfl
      | symlink target =>
        rw [Leaf.IsText] at hte
        rw [streamOpened, streamSymlink, if_pos hte, Node.encode]
        rfl
    | dir kids =>
      have hk := streamDirectory_eq disk path ht fun n u hu => by
        obtain ⟨hp, hc⟩ := ht.child hu
        exact ih kids n (path ++ [n]) u hp hu hc
      rw [streamOpened, hk]
      rfl

theorem dumpPathStreaming_eq (disk : Disk) (hf : find? name parent = some t) (ht : t.Archivable) :
    dumpPathStreaming disk parent name = .ok (archive t, UInt64.ofNat (archive t).length) := by
  have hn := streamNode_eq disk (maxNarDepth + 1) parent name [name] t (by decide) hf ht.dumpable
  unfold dumpPathStreaming
  rw [hn]
  rfl

theorem dump_restore_inverse (disk : Disk) (short : Nat → Nat) (dir : Entries Bytes)
    (dest : Bytes) (hdest : FileName dest) (hfree : dest ∉ dir.names) :
    (∀ (parent : Entries Bytes) (name : Bytes) (t : Node Bytes),
      find? name parent = some t → t.Archivable →
        ∃ out, dumpPathStreaming disk parent name = .ok (out, UInt64.ofNat out.length) ∧
          ∀ rest, restorePathStreaming short dir dest (out ++ rest) =
            .ok (place dest t dir, ⟨rest, out.length⟩)) ∧
    (∀ (data : Bytes) (dir' : Entries Bytes) (c : Cursor),
      restorePathStreaming short dir dest data = .ok (dir', c) →
        dumpPathStreaming disk dir' dest = .ok (data.take c.pos, UInt64.ofNat c.pos) ∧
          c.rest = data.drop c.pos) ∧
    ∀ (data : Bytes) (t : Node Bytes) (c : Cursor), parse data = .ok (t, c) → t.OnDisk →
      restorePathStreaming short dir dest data = .ok (place dest t dir, c) := by
  have hr : Free dir dest := ⟨hdest.2, hfree⟩
  refine ⟨fun parent name t hf ht => ?_, fun data dir' c hru => ?_, fun data t c hpr ht => ?_⟩
  · refine ⟨archive t, dumpPathStreaming_eq disk hf ht, fun rest => ?_⟩
    exact restorePathStreaming_eq_ok.mpr ⟨hr, t, ht, ⟨rfl, (zero_add _).symm⟩, rfl⟩
  · obtain ⟨-, t, ht, ⟨hd, hp⟩, rfl⟩ := restorePathStreaming_eq_ok.mp hru
    have hf : find? dest (place dest t dir) = some t := by
      rw [find?_place hfree, if_pos rfl]
    dsimp only at hd hp
    rw [dumpPathStreaming_eq disk hf ht, hd, hp, zero_add, take_left, drop_left]
    exact ⟨rfl, rfl⟩
  · obtain ⟨hlm, ha⟩ := parse_eq_ok.mp hpr
    have hte : t.All (validUtf8 · = true) Leaf.IsText := by
      refine hlm.all.imp (fun _ hn => hn.2) fun l hl => ?_
      cases l with
      | regular contents executable => trivial
      | symlink target => exact hl.1
    have hw := (shape_iff.mp hlm.shape).2
    exact restorePathStreaming_eq_ok.mpr ⟨hr, t, ⟨ht, hte, hw, hlm.narrow⟩, ha, rfl⟩

def backwards : Disk where
  listing _ kids := (ascii ".." :: kids.names.reverse) ++ [ascii "."]
  reads _ _ := 1
  lists _ kids := by
    refine ⟨[ascii "..", ascii "."], by decide, ?_⟩
    refine List.Perm.cons _ ?_
    exact perm_append_comm.trans (List.Perm.cons _ kids.names.reverse_perm)

theorem sample_archivable : sample.Archivable :=
  ⟨⟨by decide, by decide⟩, by decide, by decide, by decide⟩

theorem dump_restore_inverse_sample :
    FileName (ascii "copy") ∧ ascii "copy" ∉ (sample.cons (ascii "out") .nil).names ∧
      ∃ out, dumpPathStreaming backwards (sample.cons (ascii "out") .nil) (ascii "out") =
          .ok (out, UInt64.ofNat out.length) ∧
        restorePathStreaming (fun _ => 3) (sample.cons (ascii "out") .nil) (ascii "copy")
            (out ++ [1, 2]) =
          .ok (sample.cons (ascii "copy") (sample.cons (ascii "out") .nil),
            ⟨[1, 2], out.length⟩) := by
  have hd : FileName (ascii "copy") := by decide
  have hf : ascii "copy" ∉ (sample.cons (ascii "out") .nil).names := by decide
  obtain ⟨hdu, -, -⟩ := dump_restore_inverse backwards (fun _ => 3)
    (sample.cons (ascii "out") .nil) (ascii "copy") hd hf
  obtain ⟨out, ho, hr⟩ :=
    hdu (sample.cons (ascii "out") .nil) (ascii "out") sample rfl sample_archivable
  exact ⟨hd, hf, out, ho, hr [1, 2]⟩

end RioBuild.Nar
