import RioBuild.Chunked.Outputs
import RioBuild.Chunked.ReadBack

namespace RioBuild.Chunked

open Lib Castore Nar

variable {k : Codec}

theorem merkle_snd_eq_count : (k.merkle f).2 = UInt64.ofNat f.count := by
  induction f with
  | nil => rfl
  | leaf name l rest ih =>
    cases l with
    | regular ref executable | symlink target =>
      rw [Codec.merkle, ih, Forest.count, UInt64.ofNat_add, add_comm]
      rfl
  | dir name kids rest ihk ih =>
    rw [Codec.merkle, ihk, ih, Forest.count, UInt64.ofNat_add, UInt64.ofNat_add]
    change 1 + _ + _ = _ + _ + 1
    abel

theorem exists_below (h : Unfolds dirs cs f) (he : Child.dir e ∈ cs) :
    ∃ digest d kids, e.digest = digest.1 ∧ dirs.lookup digest = some d ∧
      Unfolds dirs (sortedChildren d) kids ∧ kids.count ≤ f.count := by
  induction h with
  | nil => cases he
  | @dir name digest size d rest kids f hf hb _ _ ih =>
    rcases List.mem_cons.mp he with he | he
    · cases he
      refine ⟨digest, d, kids, rfl, hf, hb, ?_⟩
      simp only [Forest.count]
      omega
    · obtain ⟨digest', d', kids', hd, hf', hb', hc⟩ := ih he
      refine ⟨digest', d', kids', hd, hf', hb', ?_⟩
      simp only [Forest.count]
      omega
  | file _ ih | symlink _ ih =>
    obtain ⟨digest, d, kids, hd, hf, hb, hc⟩ := ih (by simpa using he)
    exact ⟨digest, d, kids, hd, hf, hb, Nat.le_succ_of_le hc⟩

def Expands (dirs : Map Digest Directory) (x : Digest) : Prop :=
  ∃ d f, dirs.lookup x = some d ∧ Unfolds dirs (sortedChildren d) f ∧ f.count ≤ maxNarEntries

theorem Expands.step (h : Expands dirs x) (hx : Refers dirs x y) : Expands dirs y := by
  obtain ⟨d, f, hd, hf, hc⟩ := h
  obtain ⟨d', hd', e, he, hy⟩ := hx
  rw [hd] at hd'
  cases hd'
  have hch : Child.dir e ∈ sortedChildren d :=
    (perm_sortedChildren d).mem_iff.mpr (by simpa [byKind] using he)
  obtain ⟨digest, child, kids, hdg, hfd, hb, hle⟩ := exists_below hf hch
  obtain rfl : digest = y := Subtype.ext (hdg.symm.trans hy)
  exact ⟨child, kids, hfd, hb, hle.trans hc⟩

theorem expands_of_reached (hw : ∀ out ∈ outputs, (walk out.rootNode dirs maxNarEntries).2 = none)
    (hx : Reached outputs dirs x) : Expands dirs x := by
  obtain ⟨r, ⟨out, ho, hr⟩, hre⟩ := hx
  induction hre with
  | refl =>
    obtain ⟨t, ht, hwk⟩ := exists_rootUnfolds (hw out ho)
    rw [hr] at ht
    generalize hd : r.1 = b at ht
    cases ht with
    | @dir digest d kids hf hb =>
      obtain rfl : r = digest := Subtype.ext hd
      exact ⟨d, kids, hf, hb, by have := hwk.2.1; omega⟩
  | tail _ hs ih => exact ih.step hs

def Descendants (dirs : Map Digest Directory) (d : Directory) (n : Nat) : Prop :=
  ∃ f, Unfolds dirs (sortedChildren d) f ∧ f.count = n

/-- What the checks guarantee of an output: its manifest is cut into the runs of its files, in the
order of the walk. -/
structure OutputSound (dirs : Map Digest Directory) (o : ChunkedOutput) (out : ValidatedOutput) :
    Prop where
  rootNode : o.rootNode = some out.rootNode
  chunkManifest : o.chunkManifest = out.chunkManifest.map chunkMeta
  walked : (walk out.rootNode dirs maxNarEntries).2 = none
  cut : Cut out.chunkManifest 0 (walkFiles (walk out.rootNode dirs maxNarEntries).1)
    out.fileRuns out.chunkManifest.length

structure Sound (k : Codec) (begin : PutPathChunkedBegin) (v : ValidatedBegin) : Prop where
  supplied : Collected k begin.directories v.directories
  reachable : ∀ x, x ∈ v.directories.keys ↔ ∃ o ∈ begin.outputs, ∃ r : Digest,
    o.rootNode = some (.dirDigest r.1) ∧ Relation.ReflTransGen (Refers v.directories) r x
  /-- The size of an entry is the number of nodes below it. -/
  sizes : ∀ d ∈ begin.directories, ∀ e ∈ d.directories, ∃ child ∈ begin.directories,
    e.digest = (k.directoryDigest child).1 ∧ Descendants v.directories child e.size.toNat
  outputs : List.Forall₂ (OutputSound v.directories) begin.outputs v.outputs
  oneSize : ∀ o ∈ begin.outputs, ∀ c ∈ o.chunkManifest, ∀ o' ∈ begin.outputs,
    ∀ c' ∈ o'.chunkManifest, c.digest = c'.digest → c.size = c'.size
  novel : begin.novel = v.novel.map Subtype.val ∧ v.novel.Nodup ∧
    v.novel.Sublist (Search.unseen ∅ (manifestDigests v.outputs))

namespace Passed

section

variable (h : Passed k paths begin claims outs v)
include h

theorem collected : Collected k begin.directories v.directories := by
  rw [h.directories]
  exact ⟨h.valid, h.nodup, lookup_bodyMap h.nodup⟩

theorem outputSound : List.Forall₂ (OutputSound v.directories) begin.outputs v.outputs := by
  refine Guards.forall₂_comp ?_ h.checked h.aligned
  rintro o out out' ho ⟨⟨runs, rfl⟩, hw, hc⟩
  exact ⟨ho.rootNode, ho.chunkManifest, hw, hc⟩

theorem isRoot_iff : IsRoot outs x ↔ ∃ o ∈ begin.outputs, o.rootNode = some (.dirDigest x.1) := by
  constructor
  · rintro ⟨out, hou, hr⟩
    obtain ⟨o, ho, hok⟩ := Guards.exists_left_of_forall₂ h.checked hou
    exact ⟨o, ho, hr ▸ hok.rootNode⟩
  · rintro ⟨o, ho, hr⟩
    obtain ⟨out, hou, hok⟩ := Guards.exists_right_of_forall₂ h.checked ho
    exact ⟨out, hou, Option.some_inj.mp (hok.rootNode.symm.trans hr)⟩

theorem walked : ∀ out ∈ outs, (walk out.rootNode v.directories maxNarEntries).2 = none := by
  intro out ho
  obtain ⟨out', -, ⟨runs, rfl⟩, hw, -⟩ := Guards.exists_right_of_forall₂ h.aligned ho
  exact hw

theorem checkedGraph : Checked k v.directories := by
  refine ⟨fun x d hd => ((h.collected.lookup x d).mp hd).2, fun x d hd => ?_, h.sized⟩
  exact h.valid d ((h.collected.lookup x d).mp hd).1

theorem sizes_eq (hd : d ∈ begin.directories) (he : e ∈ d.directories) :
    ∃ child ∈ begin.directories, e.digest = (k.directoryDigest child).1 ∧
      Descendants v.directories child e.size.toNat := by
  have hco := h.collected
  have hg := h.checkedGraph
  have hl := (hco.lookup _ d).mpr ⟨hd, rfl⟩
  obtain ⟨digest, child, hdg, hc, hs⟩ := hg.sized _ d hl e he
  obtain ⟨hm, hchi⟩ := (hco.lookup digest child).mp hc
  refine ⟨child, hm, by rw [hdg, hchi], ?_⟩
  have hr := (h.reached digest).mp (Finmap.mem_keys.mpr (Finmap.mem_of_lookup_eq_some hc))
  obtain ⟨child', f, hc', hf, hct⟩ := expands_of_reached h.walked hr
  rw [hc] at hc'
  cases hc'
  refine ⟨f, hf, ?_⟩
  rw [← (hg.merkle_eq hc hf).2 _ hs, merkle_snd_eq_count, UInt64.toNat_ofNat', Nat.mod_eq_of_lt]
  exact hct.trans_lt (by decide)

theorem oneSize_message (ho : o ∈ begin.outputs)
    (hc : c ∈ o.chunkManifest) (ho' : o' ∈ begin.outputs) (hc' : c' ∈ o'.chunkManifest)
    (heq : c.digest = c'.digest) : c.size = c'.size := by
  have hck : ∀ {o : ChunkedOutput} {c : ChunkMeta}, o ∈ begin.outputs → c ∈ o.chunkManifest →
      ∃ p ∈ manifestChunks v.outputs, c = chunkMeta p := by
    intro o c ho hc
    obtain ⟨out, hou, hok⟩ := Guards.exists_right_of_forall₂ h.outputSound ho
    rw [hok.chunkManifest] at hc
    obtain ⟨p, hp, rfl⟩ := List.mem_map.mp hc
    exact ⟨p, List.mem_flatMap.mpr ⟨out, hou, hp⟩, rfl⟩
  obtain ⟨p, hp, rfl⟩ := hck ho hc
  obtain ⟨p', hp', rfl⟩ := hck ho' hc'
  have := h.oneSize p hp p' hp' (Subtype.ext heq)
  simp [chunkMeta, this]

theorem sound : Sound k begin v where
  supplied := h.collected
  reachable x := by
    rw [h.reached]
    constructor
    · rintro ⟨r, hr, hre⟩
      obtain ⟨o, ho, hro⟩ := h.isRoot_iff.mp hr
      exact ⟨o, ho, r, hro, hre⟩
    · rintro ⟨o, ho, r, hro, hre⟩
      exact ⟨r, h.isRoot_iff.mpr ⟨o, ho, hro⟩, hre⟩
  sizes _ hd _ he := h.sizes_eq hd he
  outputs := h.outputSound
  oneSize _ ho _ hc _ ho' _ hc' := h.oneSize_message ho hc ho' hc'
  novel := ⟨h.novel_eq, Search.nodup_unseen.sublist h.novel, h.novel⟩

end

end Passed

/-- An accepted message is sound; and chunks of positive sizes are refused only where there is no
cut. -/
theorem validateBegin_sound :
    (∀ k paths begin claims v, validateBegin k paths begin claims = .ok v → Sound k begin v) ∧
      ∀ i out dirs e, (∀ c ∈ out.chunkManifest, 0 < c.2.toNat) →
        alignChunkRuns i out dirs = .error e →
        ¬∃ runs, (walk out.rootNode dirs maxNarEntries).2 = none ∧
          Cut out.chunkManifest 0 (walkFiles (walk out.rootNode dirs maxNarEntries).1) runs
            out.chunkManifest.length := by
  constructor
  · intro k paths begin claims v h
    obtain ⟨outs, hpd⟩ := validateBegin_eq_ok.mp h
    exact hpd.sound
  · rintro i out dirs e hp he ⟨runs, hw, hc⟩
    rw [alignChunkRuns_complete hp hw hc] at he
    cases he

/-- The two files of the tree are cut into two chunks each. -/
def sharingOutput : ChunkedOutput where
  storePath := [2]
  narHash := (headDigest [9]).1
  narSize := 200
  references := []
  rootNode := some (.dirDigest (headDigest [3]).1)
  chunkManifest := [⟨(headDigest [7]).1, 1⟩, ⟨(headDigest [8]).1, 1⟩, ⟨(headDigest [7]).1, 1⟩,
    ⟨(headDigest [8]).1, 1⟩]

def sharingBegin : PutPathChunkedBegin where
  deriver := [1]
  outputs := [sharingOutput]
  directories := [sharingBody, sharedBody]
  novel := [(headDigest [7]).1, (headDigest [8]).1]
  inputClosure := []

def sharingPaths : StorePaths := ⟨fun _ => true, fun _ => true, fun p => p⟩

def sharingClaims : AssignmentClaims := ⟨[1], [[2]], false, []⟩

def sharingChecked : ValidatedOutput where
  storePath := [2]
  narHash := headDigest [9]
  narSize := 200
  references := []
  rootNode := .dirDigest (headDigest [3]).1
  chunkManifest := [(headDigest [7], 1), (headDigest [8], 1), (headDigest [7], 1),
    (headDigest [8], 1)]
  isCa := false
  fileRuns := []

def sharingAligned : ValidatedOutput :=
  { sharingChecked with fileRuns := [⟨headDigest [7, 8], 2, 0, 2⟩, ⟨headDigest [7, 8], 2, 2, 4⟩] }

theorem aligned_sharing : Aligned sharingDirs sharingChecked sharingAligned := by
  refine ⟨⟨_, rfl⟩, ?_, ?_⟩
  · change (walk (.dirDigest (headDigest [3]).1) sharingDirs maxNarEntries).2 = none
    rw [walk_sharing]
  · change Cut sharingChecked.chunkManifest 0 (walkFiles (walk (.dirDigest (headDigest [3]).1)
      sharingDirs maxNarEntries).1) sharingAligned.fileRuns 4
    rw [walk_sharing]
    exact .cons (by decide) (by decide) rfl (.cons (by decide) (by decide) rfl .nil)

theorem reached_sharing (x : Digest) :
    x ∈ sharingDirs.keys ↔ Reached [sharingChecked] sharingDirs x := by
  rw [Finmap.mem_keys, ← Finmap.lookup_isSome, Option.isSome_iff_exists]
  have hr : sharingDirs.lookup (headDigest [3]) = some sharingBody :=
    lookup_sharingDirs.mpr (.inl ⟨rfl, rfl⟩)
  have hroot : IsRoot [sharingChecked] (headDigest [3]) := ⟨sharingChecked, by simp, rfl⟩
  constructor
  · rintro ⟨d, hd⟩
    obtain ⟨-, rfl⟩ | ⟨-, rfl⟩ := lookup_sharingDirs.mp hd
    · exact ⟨_, hroot, .refl⟩
    · exact ⟨_, hroot, .single ⟨_, hr, _, List.mem_cons_self, rfl⟩⟩
  · rintro ⟨r, ⟨out, hm, hr'⟩, hre⟩
    obtain rfl := List.mem_singleton.mp hm
    obtain rfl : headDigest [3] = r := Subtype.ext (RootNode.dirDigest.inj hr')
    rcases hre.cases_tail with rfl | ⟨y, -, d, hd, e, he, hx⟩
    · exact ⟨_, hr⟩
    · obtain ⟨digest, child, hdg, hc, -⟩ := sized_sharing hd he
      obtain rfl : digest = x := Subtype.ext (hdg.symm.trans hx)
      exact ⟨_, hc⟩

theorem validateBegin_sound_sharing :
    ∃ v, validateBegin (.numbered headDigest) sharingPaths sharingBegin sharingClaims = .ok v ∧
      Sound (.numbered headDigest) sharingBegin v := by
  have ho : validateBegin (.numbered headDigest) sharingPaths sharingBegin sharingClaims =
      .ok ⟨[sharingAligned], sharingDirs, [headDigest [7], headDigest [8]]⟩ := by
    refine validateBegin_eq_ok.mpr ⟨[sharingChecked], ?_⟩
    exact {
      outputs_ne := by decide
      outputs_le := by decide
      closure_le := by decide
      directories_le := by decide
      closure := rfl
      deriver := rfl
      valid := fun _ hd => validateDirectory_eq_ok.mp (valid_sharing hd)
      nodup := nodup_sharing
      directories := rfl
      storePaths := List.nodup_singleton _
      checked := .cons (checkOutput_eq_ok (x := (sharingOutput, 0)).mp (by decide)) .nil
      reached := reached_sharing
      sized := fun _ _ hd _ he => sized_sharing hd he
      aligned := .cons aligned_sharing .nil
      oneSize := by simp [OneSize, manifestChunks, sharingAligned, sharingChecked]
      novel_le := by decide
      novel_eq := rfl
      novel := by decide }
  exact ⟨_, ho, validateBegin_sound.1 _ _ _ _ _ ho⟩

end RioBuild.Chunked
