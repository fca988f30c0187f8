import RioBuild.Castore.Pieces
import RioBuild.Castore.Unfold
import RioBuild.Nar.Parse

namespace RioBuild.Castore

open Lib Nar Nar.Frame List NarPieces

inductive ParseError
  | nar (e : NarError)
  | trailing (bytes : Nat)
  | buildPanic
  deriving DecidableEq, Repr

/-- The encoded index is left out. -/
structure ParsedNar where
  entries : List NarLsEntry
  dag : DirectoryDag
  deriving DecidableEq, Repr

/-- The bytes from `lo` up to `hi`; `none` where indexing panics. -/
def slice (data : Bytes) (lo hi : Nat) : Option Bytes :=
  if lo ≤ hi ∧ hi ≤ data.length then some ((data.take hi).drop lo) else none

def contentRange (e : NarLsEntry) (data : Bytes) : Option Bytes :=
  slice data e.narOffset (e.narOffset + e.size.toNat)

namespace ParsedNar

def parse (k : Codec) (narData : Bytes) : Except ParseError ParsedNar :=
  match narLs k.blake3 narData with
  | .error e => .error (.nar e)
  | .ok (entries, cursor) =>
    if cursor.pos ≠ narData.length then .error (.trailing (narData.length - cursor.pos))
    else
      match build k entries with
      | none => .error .buildPanic
      | some dag => .ok { entries, dag }

/-- A sum of sizes; it is at most the length of the archive. -/
def blobLen (p : ParsedNar) : Nat :=
  ((p.entries.filter (·.kind = .regular)).map (·.size.toNat)).sum

def blobStream (p : ParsedNar) (narData : Bytes) : Option Bytes :=
  p.entries.foldlM
    (fun out e =>
      if e.kind = .regular ∧ e.size > 0 then (contentRange e narData).map (out ++ ·)
      else some out)
    []

end ParsedNar

def leafFiles : Leaf Bytes → List Bytes
  | .regular contents _ => [contents]
  | .symlink _ => []

def files : Entries Bytes → List Bytes
  | .nil => []
  | .leaf _ l rest => leafFiles l ++ files rest
  | .dir _ kids rest => files kids ++ files rest

def nodeFiles : Nar.Node Bytes → List Bytes
  | .leaf l => leafFiles l
  | .dir kids => files kids

theorem slice_append (pre c post : Bytes) :
    slice (pre ++ (c ++ post)) pre.length (pre.length + c.length) = some c := by
  unfold slice
  rw [if_pos (by simp), ← append_assoc, ← length_append, take_left, drop_left]

structure Describes (blake3 : Bytes → Digest) (data : Bytes) (e : NarLsEntry) (c : Bytes) :
    Prop where
  range : contentRange e data = some c
  digest : e.fileDigest = blake3 c
  size : e.size.toNat = c.length

def Describe (blake3 : Bytes → Digest) (data : Bytes) (entries : List NarLsEntry)
    (files : List Bytes) : Prop :=
  List.Forall₂ (Describes blake3 data) (entries.filter (·.kind = .regular)) files

theorem Describe.append (h : Describe blake3 data es cs) (h' : Describe blake3 data es' cs') :
    Describe blake3 data (es ++ es') (cs ++ cs') := by
  unfold Describe
  rw [filter_append]
  exact rel_append h h'

theorem describe_leaf (h : l.Good) (path pre post : Bytes)
    (hd : data = pre ++ (l.encode ++ post)) (hp : pre.length = pos) :
    Describe blake3 data [(l.map (refOf blake3)).entry path pos] (leafFiles l) := by
  subst hp
  cases l with
  | symlink target => exact .nil
  | regular c executable =>
    have hl : (UInt64.ofNat c.length).toNat = c.length := by
      rw [UInt64.toNat_ofNat', Nat.mod_eq_of_lt h]
    refine .cons ⟨?_, rfl, hl⟩ .nil
    have hs := slice_append
      (pre ++ (nodeOpen ++ regularHeader executable (UInt64.ofNat c.length))) c
      (contentsPadding (UInt64.ofNat c.length) ++ (nodeClose ++ post))
    rw [hd]
    simpa [contentRange, Leaf.entry, Leaf.map, refOf, Leaf.encode, hl, add_assoc] using hs

theorem describe_listing (h : f.All ValidName Leaf.Good) (path pre post : Bytes)
    (hd : data = pre ++ (encodeEntries f ++ post)) (hp : pre.length = pos) :
    Describe blake3 data (listing path pos (f.map (Leaf.map (refOf blake3)))) (files f) := by
  induction f generalizing path pos pre post with
  | nil => exact .nil
  | leaf name l rest ih =>
    obtain ⟨hn, hl, hr⟩ := h
    refine Describe.append
      (describe_leaf hl _ (pre ++ entryOpen name)
        (entryClose ++ (encodeEntries rest ++ post)) ?_ ?_)
      (ih hr path (pre ++ (entryOpen name ++ (l.encode ++ entryClose))) post ?_ ?_)
    · simp [hd, encodeEntries]
    · simp [hp]
    · simp [hd, encodeEntries]
    · simp [hp, Leaf.length_encode blake3 hl, add_assoc]
  | dir name kids rest ihk ih =>
    obtain ⟨hn, hk, hr⟩ := h
    refine Describe.append
      (ihk hk _ (pre ++ (entryOpen name ++ (nodeOpen ++ directoryOpen)))
        (nodeClose ++ (entryClose ++ (encodeEntries rest ++ post))) ?_ ?_)
      (ih hr path (pre ++ (entryOpen name ++ (nodeOpen ++ (directoryOpen ++
        (encodeEntries kids ++ (nodeClose ++ entryClose)))))) post ?_ ?_)
    · simp [hd, encodeEntries]
    · simp [hp, add_assoc]
    · simp [hd, encodeEntries]
    · simp [hp, length_encodeEntries blake3 hk, add_assoc]

theorem describe_index (blake3 : Bytes → Digest) (h : t.Good) (post : Bytes) :
    Describe blake3 (archive t ++ post) (index (t.map (refOf blake3))) (nodeFiles t) := by
  cases t with
  | leaf l =>
    refine describe_leaf h [] magic post ?_ rfl
    simp [archive, Node.encode]
  | dir kids =>
    refine describe_listing h [] (magic ++ (nodeOpen ++ directoryOpen)) (nodeClose ++ post) ?_ ?_
    · simp [archive, Node.encode]
    · simp

theorem Describe.cons_iff : Describe blake3 data (e :: entries) cs ↔ if e.kind = .regular then
      ∃ c cs', cs = c :: cs' ∧ Describes blake3 data e c ∧ Describe blake3 data entries cs'
    else Describe blake3 data entries cs := by
  unfold Describe
  by_cases hk : e.kind = .regular
  · rw [if_pos hk, filter_cons_of_pos (by simpa using hk)]
    constructor
    · intro h
      cases h with
      | cons hc hcs => exact ⟨_, _, rfl, hc, hcs⟩
    · rintro ⟨c, cs', rfl, hc, hcs⟩
      exact .cons hc hcs
  · rw [if_neg hk, filter_cons_of_neg (by simpa using hk)]

theorem Describe.foldlM_stream (h : Describe blake3 data entries cs) (out : Bytes) : entries.foldlM
    (fun out e =>
      if e.kind = .regular ∧ e.size > 0 then (contentRange e data).map (out ++ ·)
      else some out)
    out = some (out ++ cs.flatten) := by
  induction entries generalizing cs out with
  | nil =>
    cases h
    simp
  | cons e entries ih =>
    rw [cons_iff] at h
    rw [foldlM_cons]
    by_cases hk : e.kind = .regular
    · rw [if_pos hk] at h
      obtain ⟨c, cs', rfl, hc, hcs⟩ := h
      by_cases hs : e.size > 0
      · rw [if_pos ⟨hk, hs⟩, hc.range]
        exact (ih hcs _).trans (by simp)
      · have he : c = [] := by
          have hz : e.size = 0 := UInt64.le_zero_iff.mp (UInt64.not_lt.mp hs)
          have := hc.size
          rw [hz] at this
          exact length_eq_zero_iff.mp this.symm
        rw [if_neg (fun h => hs h.2), he]
        exact ih hcs _
    · rw [if_neg hk] at h
      rw [if_neg (fun h => hk h.1)]
      exact ih h _

theorem Describe.sum_sizes (h : Describe blake3 data entries cs) :
    ((entries.filter (·.kind = .regular)).map (·.size.toNat)).sum = cs.flatten.length := by
  unfold Describe at h
  generalize entries.filter (·.kind = .regular) = es at h
  induction h with
  | nil => rfl
  | cons hc _ ih => rw [List.map_cons, sum_cons, hc.size, ih, flatten_cons, length_append]

structure BlobRows (blake3 : Bytes → Digest) (cs : List Bytes)
    (x : Map Digest (Nat × UInt64) × Nat) : Prop where
  length : x.2 = cs.flatten.length
  found : ∀ c ∈ cs, blake3 c ∈ x.1.keys
  row : ∀ d v, x.1.lookup d = some v → ∃ pre c post, cs = pre ++ c :: post ∧ d = blake3 c ∧
    v.1 = pre.flatten.length ∧ v.2.toNat = c.length

theorem BlobRows.addBlob (h : BlobRows blake3 cs x) (hk : e.kind = .regular)
    (hc : Describes blake3 data e c) : BlobRows blake3 (cs ++ [c]) (addBlob x e) := by
  have ho : ∀ d v, x.1.lookup d = some v → ∃ pre c' post, cs ++ [c] = pre ++ c' :: post ∧
      d = blake3 c' ∧ v.1 = pre.flatten.length ∧ v.2.toNat = c'.length := by
    intro d v hv
    obtain ⟨pre, c', post, hcs, hr⟩ := h.row d v hv
    exact ⟨pre, c', post ++ [c], by simp [hcs], hr⟩
  have hl : x.2 + e.size.toNat = (cs ++ [c]).flatten.length := by
    rw [h.length, hc.size]
    simp
  unfold Castore.addBlob
  rw [if_pos hk]
  by_cases hm : e.fileDigest ∈ x.1.keys
  · rw [if_pos hm]
    refine ⟨hl, fun c' hc' => ?_, ho⟩
    rcases mem_append.mp hc' with hc' | hc'
    · exact h.found c' hc'
    · rw [mem_singleton.mp hc', ← hc.digest]
      exact hm
  · rw [if_neg hm]
    refine ⟨hl, fun c' hc' => ?_, fun d v hv => ?_⟩
    · rw [Finmap.mem_keys, Finmap.mem_insert]
      rcases mem_append.mp hc' with hc' | hc'
      · exact .inr (Finmap.mem_keys.mp (h.found c' hc'))
      · rw [mem_singleton.mp hc']
        exact .inl hc.digest.symm
    · rw [Map.lookup_insert_ite] at hv
      split_ifs at hv with hd
      · cases hv
        exact ⟨cs, c, [], rfl, hd.trans hc.digest, h.length, hc.size⟩
      · exact ho d v hv

theorem Describe.blobRows (h : Describe blake3 data entries cs) (hx : BlobRows blake3 cs' x) :
    BlobRows blake3 (cs' ++ cs) (entries.foldl addBlob x) := by
  induction entries generalizing cs cs' x with
  | nil =>
    cases h
    rwa [append_nil]
  | cons e entries ih =>
    rw [cons_iff] at h
    rw [foldl_cons]
    by_cases hk : e.kind = .regular
    · rw [if_pos hk] at h
      obtain ⟨c, cs, rfl, hc, hcs⟩ := h
      rw [List.append_cons]
      exact ih hcs (hx.addBlob hk hc)
    · rw [if_neg hk] at h
      rw [addBlob, if_neg hk]
      exact ih h hx

theorem blobRows_empty : BlobRows blake3 [] (∅, 0) :=
  ⟨rfl, nofun, fun d v hv => by simp at hv⟩

section

variable (h : Describe blake3 data entries cs)
include h

theorem Describe.slice_row (hr : row ∈ sortedRows (entries.foldl addBlob (∅, 0)).1) :
    ∃ c ∈ cs, row.1 = blake3 c ∧ slice cs.flatten row.2.1 (row.2.1 + row.2.2.toNat) = some c := by
  obtain ⟨pre, c, post, hc, hd, hs, hsz⟩ :=
    (h.blobRows blobRows_empty).row _ _ (mem_sortedRows.mp hr)
  rw [nil_append] at hc
  refine ⟨c, by simp [hc], hd, ?_⟩
  rw [hs, hsz, hc, flatten_append]
  exact slice_append _ _ _

theorem Describe.exists_row (hc : c ∈ cs) :
    ∃ row ∈ sortedRows (entries.foldl addBlob (∅, 0)).1, row.1 = blake3 c := by
  have hf := (h.blobRows blobRows_empty).found c hc
  rw [Finmap.mem_keys, ← Finmap.lookup_isSome] at hf
  obtain ⟨v, hv⟩ := Option.isSome_iff_exists.mp hf
  exact ⟨(blake3 c, v), mem_sortedRows.mpr hv, rfl⟩

theorem Describe.exists_entry (hc : c ∈ cs) :
    ∃ e ∈ entries, e.kind = .regular ∧ contentRange e data = some c := by
  obtain ⟨i, hi, rfl⟩ := getElem_of_mem hc
  have hl := List.Forall₂.length_eq h
  have he := List.Forall₂.get h (hl ▸ hi) hi
  have hm := mem_filter.mp (get_mem _ ⟨i, hl ▸ hi⟩)
  exact ⟨_, hm.1, of_decide_eq_true hm.2, he.range⟩

theorem Describe.exists_file (he : e ∈ entries)
    (hk : e.kind = .regular) : ∃ c ∈ cs, contentRange e data = some c := by
  have hm : e ∈ entries.filter (·.kind = .regular) :=
    mem_filter.mpr ⟨he, decide_eq_true hk⟩
  obtain ⟨i, hi, rfl⟩ := getElem_of_mem hm
  have hl := List.Forall₂.length_eq h
  exact ⟨_, get_mem _ ⟨i, hl ▸ hi⟩, (List.Forall₂.get h hi (hl ▸ hi)).range⟩

end

theorem fill_leaf (h : ∀ c ∈ leafFiles l, contents (blake3 c) = c) :
    Backed contents (l.map (refOf blake3)) ∧ (l.map (refOf blake3)).map (fill contents) = l := by
  cases l with
  | regular c executable =>
    have hc : contents (blake3 c) = c := h c mem_cons_self
    simp [Leaf.map, Backed, fill, refOf, hc]
  | symlink target => exact ⟨trivial, rfl⟩

theorem fill_entries (h : ∀ c ∈ files f, contents (blake3 c) = c) :
    (f.map (Leaf.map (refOf blake3))).All (fun _ => True) (Backed contents) ∧
      (f.map (Leaf.map (refOf blake3))).map (Leaf.map (fill contents)) = f := by
  induction f with
  | nil => exact ⟨trivial, rfl⟩
  | leaf name l rest ih =>
    rw [files, forall_mem_append] at h
    obtain ⟨hb, hl⟩ := fill_leaf h.1
    obtain ⟨hr, hf⟩ := ih h.2
    exact ⟨⟨trivial, hb, hr⟩, congrArg₂ (Forest.leaf name) hl hf⟩
  | dir name kids rest ihk ih =>
    rw [files, forall_mem_append] at h
    obtain ⟨hk, hkf⟩ := ihk h.1
    obtain ⟨hr, hf⟩ := ih h.2
    exact ⟨⟨trivial, hk, hr⟩, congrArg₂ (Forest.dir name) hkf hf⟩

theorem fill_node (h : ∀ c ∈ nodeFiles t, contents (blake3 c) = c) :
    NodeBacked contents (t.map (refOf blake3)) ∧
      (t.map (refOf blake3)).map (fill contents) = t := by
  cases t with
  | leaf l => exact ⟨(fill_leaf h).1, congrArg Node.leaf (fill_leaf h).2⟩
  | dir kids => exact ⟨(fill_entries h).1, congrArg Node.dir (fill_entries h).2⟩

namespace ParsedNar

theorem parse_eq_ok :
    parse k narData = .ok p ↔ ∃ t : Nar.Node Bytes, t.Good ∧ (t.map (refOf k.blake3)).Allowed ∧
      narData = archive t ∧ p.entries = index (t.map (refOf k.blake3)) ∧
      build k p.entries = some p.dag := by
  unfold parse
  constructor
  · intro h
    cases hl : narLs k.blake3 narData with
    | error e =>
      rw [hl] at h
      cases h
    | ok x =>
      obtain ⟨entries, c⟩ := x
      obtain ⟨t, hg, ha, hat, rfl⟩ := narLs_eq_ok.mp hl
      rw [hl] at h
      dsimp only at h
      split at h
      · cases h
      cases hd : build k (index (t.map (refOf k.blake3))) with
      | none =>
        rw [hd] at h
        cases h
      | some dag =>
        rw [hd] at h
        cases h
        refine ⟨t, hg, ha, ?_, rfl, hd⟩
        obtain ⟨hr, he⟩ := hat
        have hle : c.rest.length = 0 := by
          have := congrArg length hr
          rw [length_append] at this
          dsimp only at he this
          omega
        rw [length_eq_zero_iff.mp hle, append_nil] at hr
        exact hr
  · rintro ⟨t, hg, ha, rfl, hes, hd⟩
    have hl : narLs k.blake3 (archive t) = .ok (p.entries, ⟨[], (archive t).length⟩) :=
      narLs_eq_ok.mpr ⟨t, hg, ha, ⟨by simp, by simp⟩, hes⟩
    rw [hl]
    dsimp only
    rw [if_neg (not_not.mpr rfl), hd]

def hashed (k : Codec) (p : ParsedNar) (narData : Bytes) : Set Bytes :=
  { b | (∃ d ∈ builtDirectories k p.entries, k.encodeDirectory d = b) ∨
    ∃ e ∈ p.entries, e.kind = .regular ∧ contentRange e narData = some b }

theorem parse_regenerates {maxNodes : Nat} (hk : k.Lossless) (hmax : maxNarEntries ≤ maxNodes)
    (hp : parse k narData = .ok p) (hinj : Set.InjOn k.blake3 (hashed k p narData)) :
    ∃ stream, p.blobStream narData = some stream ∧ p.blobLen = stream.length ∧
      (∀ row ∈ p.dag.fileBlobs, ∃ bytes,
        slice stream row.2.1 (row.2.1 + row.2.2.toNat) = some bytes ∧ k.blake3 bytes = row.1) ∧
      ∃ root dirs, decodeDag k p.dag.rootNode (p.dag.directories.map Prod.snd) = some (root, dirs) ∧
        ∀ contents : Digest → Bytes,
          (∀ row ∈ p.dag.fileBlobs,
            slice stream row.2.1 (row.2.1 + row.2.2.toNat) = some (contents row.1)) →
          (narPieces root dirs maxNodes).2 = none ∧
            (narPieces root dirs maxNodes).1.flatMap (NarPiece.bytes contents) = narData := by
  obtain ⟨t, hg, ha, rfl, he, hda⟩ := parse_eq_ok.mp hp
  have hds : Describe k.blake3 (archive t) p.entries (nodeFiles t) := by
    have := describe_index k.blake3 hg []
    rwa [append_nil, ← he] at this
  obtain ⟨dag, hda', hbu, hbo⟩ := build_index (nodeNamed_of_fits ha.fits)
  rw [← he] at hda' hbo
  obtain rfl : dag = p.dag := Option.some_inj.mp (hda'.symm.trans hda)
  have hb := hbu.blobs
  rw [← he] at hb
  obtain ⟨dirs, hdi, hl⟩ := decodeDag_built hk hbu fun d hd d' hd' heq =>
    hinj (.inl ⟨d, (hbo d).mpr hd, rfl⟩) (.inl ⟨d', (hbo d').mpr hd', rfl⟩) heq
  refine ⟨(nodeFiles t).flatten, hds.foldlM_stream [], hds.sum_sizes, ?_, _, dirs,
    hdi, fun contents hct => ?_⟩
  · intro row hr
    rw [hb] at hr
    obtain ⟨c, -, hd, hs⟩ := hds.slice_row hr
    exact ⟨c, hs, hd.symm⟩
  · have hfi : ∀ c ∈ nodeFiles t, contents (k.blake3 c) = c := by
      intro c hc
      obtain ⟨row, hr, hd⟩ := hds.exists_row hc
      obtain ⟨c', hc', hd', hs⟩ := hds.slice_row hr
      rw [← hb] at hr
      have heq : c' = c := hinj (.inr (hds.exists_entry hc'))
        (.inr (hds.exists_entry hc)) (hd'.symm.trans hd)
      have := (hct row hr).symm.trans hs
      rw [← hd, Option.some_inj.mp this, heq]
    obtain ⟨hba, hf⟩ := fill_node hfi
    have hpi := narPieces_eq (rootUnfolds_rootNode ha.fits hl) (walkable_of_allowed ha hmax) hba
    rw [hf] at hpi
    exact hpi

def sharing : Nar.Node Bytes :=
  .dir (.dir [97] (.leaf [102] (.regular [7, 8] false) .nil)
    (.dir [98] (.leaf [102] (.regular [7, 8] false) .nil) .nil))

theorem parse_regenerates_sharing : ∃ p, parse (.numbered headDigest) (archive sharing) = .ok p ∧
      ∃ stream, p.blobStream (archive sharing) = some stream ∧ p.blobLen = stream.length ∧
        (∀ row ∈ p.dag.fileBlobs, ∃ bytes,
          slice stream row.2.1 (row.2.1 + row.2.2.toNat) = some bytes ∧ headDigest bytes = row.1) ∧
        ∃ root dirs, decodeDag (.numbered headDigest) p.dag.rootNode
            (p.dag.directories.map Prod.snd) = some (root, dirs) ∧
          ∀ contents : Digest → Bytes,
            (∀ row ∈ p.dag.fileBlobs,
              slice stream row.2.1 (row.2.1 + row.2.2.toNat) = some (contents row.1)) →
            (narPieces root dirs maxNarEntries).2 = none ∧
              (narPieces root dirs maxNarEntries).1.flatMap (NarPiece.bytes contents) =
                archive sharing := by
  have hg : sharing.Good := by
    simp only [sharing, Node.Good, Forest.All, ValidName, Leaf.Good]
    decide
  have ha : (sharing.map (refOf headDigest)).Allowed := by
    refine ⟨⟨all_map hg, ?_, ?_⟩, by decide, by decide⟩
    · simp only [Forest.Ordered, Forest.map, Forest.names, Forest.tops]
      decide
    · simp [Forest.Within, Forest.map, maxNarDepth]
  obtain ⟨dag, hda, -, hbo⟩ := build_index (nodeNamed_of_fits ha.fits)
  have hp : parse (.numbered headDigest) (archive sharing) =
      .ok ⟨index (sharing.map (refOf headDigest)), dag⟩ :=
    parse_eq_ok.mpr ⟨sharing, hg, ha, rfl, rfl, hda⟩
  refine ⟨_, hp, parse_regenerates (Codec.lossless_numbered _) le_rfl hp ?_⟩
  have hin : ∀ b ∈ hashed (.numbered headDigest) ⟨index (sharing.map (refOf headDigest)), dag⟩
      (archive sharing), b = (Codec.numbered headDigest).encodeDirectory sharingBody ∨
        b = (Codec.numbered headDigest).encodeDirectory sharedBody ∨ b = [7, 8] := by
    rintro b (⟨d, hd, rfl⟩ | ⟨e, he, hk, hb⟩)
    · have hm : d = sharingBody ∨ d = sharedBody := by
        simpa [sharing, Nar.Node.map, Forest.map, Leaf.map, refOf, Codec.bodies, Codec.subBodies,
          Codec.merkle, directoryDigest_numbered, sharingBody, sharedBody] using (hbo d).mp hd
      exact hm.imp (congrArg _) fun hd => .inl (congrArg _ hd)
    · have hds := describe_index headDigest hg []
      rw [append_nil] at hds
      obtain ⟨c, hc, hr⟩ := hds.exists_file he hk
      have hm : c ∈ [[7, 8], [7, 8]] := hc
      rw [hr, Option.some_inj] at hb
      exact .inr (.inr (hb.symm.trans (by simpa using hm)))
  -- the two bodies and the file begin with different bytes
  intro b hb b' hb' heq
  have hh := eq_of_headDigest heq
  rcases hin b hb with rfl | rfl | rfl <;> rcases hin b' hb' with rfl | rfl | rfl
  all_goals first | exact absurd hh (by decide) | rfl

end ParsedNar

end RioBuild.Castore
