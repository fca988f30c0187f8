import RioBuild.Nar.Canonical

namespace RioBuild.Nar

open Lib Castore Nar.Frame List

/-- All nodes with the names on the way to them, a directory before what it holds; `none` is a
directory. -/
def Node.preorder : Node Bytes → List (List Bytes × Option (Leaf Bytes))
  | leaf l => [([], some l)]
  | dir kids => ([], none) :: kids.preorder

def pathOf (address : List Bytes) : Bytes := List.intercalate [47] address

def targetOf : Option (Leaf Bytes) → Bytes
  | some (.symlink target) => target
  | _ => []

def Node.listingSize (t : Node Bytes) : Nat :=
  (t.preorder.map fun x => (pathOf x.1).length + (targetOf x.2).length).sum

def Shows (data : Bytes) (e : NarLsEntry) : Option (Leaf Bytes) → Prop
  | none => e.kind = .directory ∧ e.size = 0 ∧ e.executable = false ∧ e.target = []
  | some (.symlink target) =>
    e.kind = .symlink ∧ e.size = 0 ∧ e.executable = false ∧ e.target = target
  | some (.regular contents executable) =>
    e.kind = .regular ∧ e.size.toNat = contents.length ∧ e.executable = executable ∧
      e.target = [] ∧ (data.drop e.narOffset).take e.size.toNat = contents

structure Lists (data : Bytes) (e : NarLsEntry) (x : List Bytes × Option (Leaf Bytes)) : Prop where
  path : e.path = pathOf x.1
  shows : Shows data e x.2

@[simp] theorem pathOf_nil : pathOf [] = [] := rfl

theorem pathOf_concat : pathOf (b ++ [name]) = if b = [] then name else pathOf b ++ 47 :: name := by
  induction b with
  | nil => simp [pathOf]
  | cons n b ih =>
    cases b with
    | nil => simp [pathOf]
    | cons m b =>
      simp [pathOf] at ih ⊢
      exact ih

theorem pathOf_ne_nil (hb : ∀ n ∈ b, n ≠ []) (h : b ≠ []) : pathOf b ≠ [] := by
  cases b with
  | nil => exact absurd rfl h
  | cons n b =>
    have hn := hb n mem_cons_self
    cases b with
    | nil => simpa [pathOf] using hn
    | cons m b => simp [pathOf]

theorem childPath_pathOf (hb : ∀ n ∈ b, n ≠ []) :
    childPath (pathOf b) name = pathOf (b ++ [name]) := by
  rw [pathOf_concat, childPath]
  by_cases h : b = []
  · rw [if_pos h, if_pos (h ▸ rfl)]
  · rw [if_neg h, if_neg (pathOf_ne_nil hb h)]

theorem ValidName.ne_nil (h : ValidName name) : name ≠ [] := by
  rintro rfl
  exact absurd h.1 (by decide)

section Lists

variable (blake3 : Bytes → Digest)

theorem lists_leaf (h : l.Good) (b : List Bytes) (pre post : Bytes)
    (hd : data = pre ++ (l.encode ++ post)) :
    Lists data ((l.map (refOf blake3)).entry (pathOf b) pre.length) (b, some l) := by
  refine ⟨by cases l <;> rfl, ?_⟩
  cases l with
  | symlink target => exact ⟨rfl, rfl, rfl, rfl⟩
  | regular contents executable =>
    have hl : (UInt64.ofNat contents.length).toNat = contents.length := by
      rw [UInt64.toNat_ofNat', Nat.mod_eq_of_lt h]
    refine ⟨rfl, hl, rfl, rfl, ?_⟩
    have hs : data =
        (pre ++ (nodeOpen ++ regularHeader executable (UInt64.ofNat contents.length))) ++
        (contents ++ (contentsPadding (UInt64.ofNat contents.length) ++ (nodeClose ++ post))) := by
      rw [hd, Leaf.encode]
      simp
    have ho : pre.length + nodeOpen.length +
          (regularHeader executable (UInt64.ofNat contents.length)).length =
        (pre ++ (nodeOpen ++ regularHeader executable (UInt64.ofNat contents.length))).length := by
      simp [add_assoc]
    simp only [Leaf.map, Leaf.entry, refOf]
    rw [ho, hl, hs, drop_left, take_left]

theorem lists_dir (b : List Bytes) : Lists data (dirEntry (pathOf b)) (b, none) :=
  ⟨rfl, rfl, rfl, rfl, rfl⟩

theorem lists_listing (h : f.All ValidName Leaf.Good)
    (hb : ∀ n ∈ b, n ≠ []) (pre post : Bytes) (hd : data = pre ++ (encodeEntries f ++ post)) :
    List.Forall₂ (Lists data) (listing (pathOf b) pre.length (f.map (Leaf.map (refOf blake3))))
      (f.preorder.map fun x => (b ++ x.1, x.2)) := by
  induction f generalizing b pre post with
  | nil => exact .nil
  | leaf name l rest ih =>
    obtain ⟨hn, hl, hr⟩ := h
    rw [Forest.map, listing, Forest.preorder, childPath_pathOf hb]
    refine .cons ?_ ?_
    · rw [← length_append]
      refine lists_leaf blake3 hl (b ++ [name]) _ (entryClose ++ (encodeEntries rest ++ post)) ?_
      simp [hd, encodeEntries]
    · have := ih hr hb (pre ++ (entryOpen name ++ (l.encode ++ entryClose))) post
        (by simp [hd, encodeEntries])
      simpa [Leaf.length_encode blake3 hl, add_assoc] using this
  | dir name kids rest ihk ih =>
    obtain ⟨hn, hk, hr⟩ := h
    have hb' : ∀ n ∈ b ++ [name], n ≠ [] := by
      simpa [or_imp, forall_and] using ⟨hb, hn.ne_nil⟩
    rw [Forest.map, listing, Forest.preorder, map_append, childPath_pathOf hb]
    refine rel_append (.cons (lists_dir _) ?_) ?_
    · have := ihk hk hb' (pre ++ (entryOpen name ++ (nodeOpen ++ directoryOpen)))
        (nodeClose ++ (entryClose ++ (encodeEntries rest ++ post)))
        (by simp [hd, encodeEntries])
      simpa [add_assoc] using this
    · have := ih hr hb (pre ++ (entryOpen name ++ (nodeOpen ++ (directoryOpen ++
        (encodeEntries kids ++ (nodeClose ++ entryClose)))))) post
        (by simp [hd, encodeEntries])
      simpa [length_encodeEntries blake3 hk, add_assoc] using this

theorem lists_index (h : t.Good) (post : Bytes) :
    List.Forall₂ (Lists (archive t ++ post)) (index (t.map (refOf blake3))) t.preorder := by
  cases t with
  | leaf l =>
    refine .cons (lists_leaf blake3 h [] magic post ?_) .nil
    simp [archive, Node.encode]
  | dir kids =>
    refine .cons (lists_dir []) ?_
    have := lists_listing blake3 h (forall_mem_nil _) (magic ++ (nodeOpen ++ directoryOpen))
      (nodeClose ++ post) rfl
    simpa [archive, Node.encode] using this

theorem Lists.size (h : Lists data e x) :
    e.path.length + e.target.length = (pathOf x.1).length + (targetOf x.2).length := by
  obtain ⟨address, o⟩ := x
  rw [h.path]
  cases o with
  | none => rw [h.shows.2.2.2]; rfl
  | some l =>
    cases l with
    | symlink target => rw [h.shows.2.2.2]; rfl
    | regular contents executable => rw [h.shows.2.2.2.1]; rfl

theorem indexSize_eq (h : List.Forall₂ (Lists data) es xs) :
    indexSize es = (xs.map fun x => (pathOf x.1).length + (targetOf x.2).length).sum := by
  induction h with
  | nil => rfl
  | cons hx _ ih => rw [indexSize_cons, hx.size, ih, List.map_cons, sum_cons]

theorem exists_entry (h : List.Forall₂ (Lists data) es xs) (hx : x ∈ xs) :
    ∃ e ∈ es, Lists data e x := by
  induction h with
  | nil => cases hx
  | @cons e y es xs hy _ ih =>
    rcases mem_cons.mp hx with rfl | hx
    · exact ⟨e, mem_cons_self, hy⟩
    · obtain ⟨e', he, hl⟩ := ih hx
      exact ⟨e', mem_cons_of_mem e he, hl⟩

end Lists

theorem Node.WithinLimits.good {t : Node Bytes} (h : t.WithinLimits) : t.Good := by
  have hle (l : Leaf Bytes) (hl : l.InLimits) : l.Good := by
    cases l with
    | regular contents executable => exact lt_of_le_of_lt hl (by decide)
    | symlink target => exact hl.2
  cases t with
  | leaf l => exact hle l h.all
  | dir kids => exact Forest.All.imp h.all (fun _ hn => hn.1) hle

def NarLsEntry.names (e : NarLsEntry) : List Bytes := e.path.splitOn 47

theorem Lists.mem_names (h : Lists data e x) (hx : ∀ n ∈ x.1, ValidName n) (hna : name ∈ x.1) :
    name ∈ e.names := by
  have hs : e.names = x.1 := by
    rw [NarLsEntry.names, h.path]
    exact splitOn_intercalate 47 (fun n hn => (hx n hn).slash) (ne_nil_of_mem hna)
  exact hs ▸ hna

theorem Lists.inLimits (h : Lists data e (address, some l)) (hl : l.Good)
    (hs : e.size.toNat ≤ maxContentSize) (ht : validUtf8 e.target = true) : l.InLimits := by
  cases l with
  | regular contents executable => exact h.shows.2.1.symm.trans_le hs
  | symlink target => exact ⟨h.shows.2.2.2 ▸ ht, hl⟩

theorem Node.all_iff {t : Node Bytes} :
    t.All p q ↔ ∀ x ∈ t.preorder, (∀ n ∈ x.1, p n) ∧ ∀ l ∈ x.2, q l := by
  cases t with
  | leaf l => simp [Node.All, preorder]
  | dir kids => simp [Node.All, preorder, Forest.all_iff]

/-- Within the limits on whole archives, the index pass accepts what the parser accepts and lists
the parsed tree.  The other way round the parser asks for more: texts. -/
theorem narLs_agrees (blake3 : Bytes → Digest) (data : Bytes) :
    (∀ t c, parse data = .ok (t, c) → t.preorder.length ≤ maxNarEntries →
      t.listingSize ≤ maxNarIndexBytes →
      ∃ es, narLs blake3 data = .ok (es, c) ∧ List.Forall₂ (Lists data) es t.preorder) ∧
    ∀ es c, narLs blake3 data = .ok (es, c) → (∀ e ∈ es, e.size.toNat ≤ maxContentSize) →
      (∀ e ∈ es, (∀ name ∈ e.names, validUtf8 name = true) ∧ validUtf8 e.target = true) →
      ∃ t, parse data = .ok (t, c) ∧ List.Forall₂ (Lists data) es t.preorder := by
  refine ⟨fun t c hp hc hsi => ?_, fun es c hls hs hte => ?_⟩
  · obtain ⟨ht, ha⟩ := parse_eq_ok.mp hp
    have hli := lists_index blake3 ht.good c.rest
    rw [← ha.1] at hli
    refine ⟨_, narLs_eq_ok.mpr ⟨t, ht.good, ⟨(fits_iff ht.good).mpr ht.shape, ?_, ?_⟩, ha, rfl⟩,
      hli⟩
    · rwa [hli.length_eq]
    · rwa [indexSize_eq hli]
  · obtain ⟨t, hg, hal, ha, rfl⟩ := narLs_eq_ok.mp hls
    have hli := lists_index blake3 hg c.rest
    rw [← ha.1] at hli
    have hr := good_iff_all.mp hg
    have hall : t.All TextName Leaf.InLimits := by
      rw [Node.all_iff] at hr ⊢
      intro x hx
      obtain ⟨hna, hle⟩ := hr x hx
      obtain ⟨e, he, hx⟩ := exists_entry hli hx
      obtain ⟨hutf8, htg⟩ := hte e he
      refine ⟨fun n hn => ⟨hna n hn, hutf8 n (hx.mem_names hna hn)⟩, fun l hl => ?_⟩
      obtain ⟨address, o⟩ := x
      cases hl
      exact hx.inLimits (hle l rfl) (hs e he) htg
    exact ⟨t, parse_eq_ok.mpr ⟨⟨hall, (fits_iff hg).mp hal.fits,
      Node.narrow_of_index hal.entries⟩, ha⟩, hli⟩

theorem narLs_agrees_sample :
    ∃ es c, narLs (fun _ => zeroDigest) (serialize sample ++ [1, 2]) = .ok (es, c) ∧
      (∀ e ∈ es, e.size.toNat ≤ maxContentSize) ∧
      (∀ e ∈ es, (∀ name ∈ e.names, validUtf8 name = true) ∧ validUtf8 e.target = true) ∧
      parse (serialize sample ++ [1, 2]) = .ok (sample, c) ∧
      List.Forall₂ (Lists (serialize sample ++ [1, 2])) es sample.preorder := by
  have hp : parse (serialize sample ++ [1, 2]) =
      .ok (sample, ⟨[1, 2], (serialize sample).length⟩) :=
    parse_eq_ok.mpr ⟨sample_withinLimits, ate_serialize sample [1, 2]⟩
  obtain ⟨hf, hb⟩ := narLs_agrees (fun _ => zeroDigest) (serialize sample ++ [1, 2])
  obtain ⟨es, hl, -⟩ := hf _ _ hp (by decide) (by decide)
  have hi : narLs (fun _ => zeroDigest) (serialize sample ++ [1, 2]) =
    .ok (index (sample.map (refOf fun _ => zeroDigest)), ⟨[1, 2], (serialize sample).length⟩) := by
    decide +kernel
  cases hi.symm.trans hl
  have hs : ∀ e ∈ index (sample.map (refOf fun _ => zeroDigest)),
      e.size.toNat ≤ maxContentSize := by
    decide
  have hte : ∀ e ∈ index (sample.map (refOf fun _ => zeroDigest)),
      (∀ name ∈ e.names, validUtf8 name = true) ∧ validUtf8 e.target = true := by
    decide
  obtain ⟨t, ht, hli⟩ := hb _ _ hl hs hte
  cases hp.symm.trans ht
  exact ⟨_, _, hl, hs, hte, hp, hli⟩

def rawLink : Bytes := archive (.leaf (.symlink [255]))

theorem narLs_accepts_rawLink : (∃ es c, narLs (fun _ => zeroDigest) rawLink = .ok (es, c) ∧
      ∀ e ∈ es, e.size.toNat ≤ maxContentSize) ∧
      parse rawLink = .error (.invalidUtf8 "symlink target" 0) := by
  refine ⟨⟨[{ path := [], kind := .symlink, target := [255] }], ⟨[], rawLink.length⟩, ?_, ?_⟩, ?_⟩
  · decide +kernel
  · decide
  · decide +kernel

end RioBuild.Nar
