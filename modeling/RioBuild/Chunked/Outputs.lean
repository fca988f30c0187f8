import RioBuild.Chunked.Align
import RioBuild.Chunked.Graph
import RioBuild.Chunked.Novel
import RioBuild.Chunked.Reach

namespace RioBuild.Chunked

open Lib Castore Nar List Guards

def chunkMeta (c : Digest × UInt32) : ChunkMeta := ⟨c.1.1, c.2.toUInt64⟩

def ChunkSized (c : Digest × UInt32) : Prop := 0 < c.2.toNat ∧ c.2.toNat ≤ fastcdcMaxBytes

def RootOk : RootNode → Prop
  | .unset => False
  | .dirDigest d => d.length = 32
  | .file f => f.digest.length = 32
  | .symlink s => validTarget s.target = true

theorem checkChunk_eq_ok : checkChunk i x = .ok c ↔ x.1 = chunkMeta c ∧ ChunkSized c := by
  obtain ⟨⟨digest, size⟩, j⟩ := x
  obtain ⟨d, s⟩ := c
  unfold checkChunk chunkMeta ChunkSized
  rw [ChunkMeta.mk.injEq, ← toDigest_eq_some]
  cases toDigest digest with
  | none => simp
  | some d' =>
    dsimp only
    by_cases hs : size = 0 ∨ size.toNat > fastcdcMaxBytes
    · rw [if_pos hs]
      refine iff_of_false nofun ?_
      rintro ⟨⟨-, rfl⟩, hp, hm⟩
      rcases hs with hs | hs
      · have := congrArg UInt64.toNat hs
        exact absurd this (pos_iff_ne_zero.mp hp)
      · exact absurd hm (not_le.mpr hs)
    · rw [if_neg hs, Except.ok.injEq, Prod.mk.injEq, Option.some.injEq, and_assoc]
      refine and_congr_right fun _ => ?_
      rw [not_or, not_lt] at hs
      have hb : size.toUInt32.toUInt64 = size := by
        apply UInt64.toNat.inj
        have hlt : fastcdcMaxBytes < 2 ^ 32 := by decide
        rw [UInt32.toNat_toUInt64, UInt64.toNat_toUInt32, Nat.mod_eq_of_lt (by omega)]
      constructor
      · rintro rfl
        refine ⟨hb.symm, ?_⟩
        rw [← UInt32.toNat_toUInt64, hb]
        exact ⟨pos_iff_ne_zero.mpr fun h => hs.1 (UInt64.toNat.inj h), hs.2⟩
      · rintro ⟨rfl, -⟩
        exact UInt32.toUInt32_toUInt64 s

theorem mapM_checkChunk {ms : List ChunkMeta} :
    ms.zipIdx.mapM (checkChunk i) = .ok cs ↔ ms = cs.map chunkMeta ∧ ∀ c ∈ cs, ChunkSized c := by
  rw [mapM_eq_ok]
  simp only [checkChunk_eq_ok]
  exact forall₂_zipIdx.trans forall₂_eq_and

theorem checkReference_eq_ok : checkReference paths refs i r = .ok r' ↔
    r = r' ∧ r' ∈ refs ∧ paths.parses r' = true := by
  unfold checkReference
  by_cases hm : r ∈ refs
  · rw [if_neg (not_not.mpr hm)]
    by_cases hp : paths.parses r = true
    · rw [hp]
      simp only [Bool.not_true, Bool.false_eq_true, if_false, Except.ok.injEq]
      constructor
      · rintro rfl
        exact ⟨rfl, hm, hp⟩
      · exact And.left
    · rw [if_pos (by simpa using hp)]
      refine iff_of_false nofun ?_
      rintro ⟨rfl, -, h⟩
      exact hp h
  · rw [if_pos hm]
    refine iff_of_false nofun ?_
    rintro ⟨rfl, h, -⟩
    exact hm h

theorem mapM_checkReference {rs rs' : List Bytes} :
    rs.mapM (checkReference paths refs i) = .ok rs' ↔
      rs = rs' ∧ ∀ r ∈ rs', r ∈ refs ∧ paths.parses r = true := by
  rw [mapM_eq_ok]
  simp only [checkReference_eq_ok]
  rw [forall₂_eq_and, map_id']

theorem decodeRootNode_eq_ok : decodeRootNode root i = .ok r ↔ root = some r ∧ RootOk r := by
  cases root with
  | none => exact iff_of_false nofun nofun
  | some root =>
    rw [Option.some.injEq]
    constructor
    · intro h
      cases root with
      | unset => cases h
      | dirDigest d | file f =>
        rw [decodeRootNode] at h
        split at h
        · cases h
        · rename_i hl
          cases h
          exact ⟨rfl, not_not.mp hl⟩
      | symlink s =>
        rw [decodeRootNode] at h
        split at h
        · cases h
        · rename_i hv
          cases h
          have hv : validTarget s.target = true := by simpa using hv
          exact ⟨rfl, hv⟩
    · rintro ⟨rfl, h⟩
      cases root with
      | unset => cases h
      | dirDigest d | file f => exact if_neg (not_not.mpr h)
      | symlink s =>
        have hv : validTarget s.target = true := h
        simp [decodeRootNode, hv]

structure OutputOk (paths : StorePaths) (claims : AssignmentClaims) (refs : Finset Bytes)
    (o : ChunkedOutput) (out : ValidatedOutput) : Prop where
  storePath : o.storePath = out.storePath
  parses : paths.parses out.storePath = true
  authorized : claims.isCa = true ∨ out.storePath ∈ claims.expectedOutputs
  narHash : o.narHash = out.narHash.1
  narSize : o.narSize = out.narSize
  narSize_pos : out.narSize ≠ 0
  narSize_le : out.narSize.toNat ≤ maxNarSize
  references : o.references = out.references
  references_le : out.references.length ≤ maxReferences
  references_mem : ∀ r ∈ out.references, r ∈ refs ∧ paths.parses r = true
  chunkManifest : o.chunkManifest = out.chunkManifest.map chunkMeta
  chunks_le : out.chunkManifest.length ≤ maxChunks
  chunks : ∀ c ∈ out.chunkManifest, ChunkSized c
  bytes_le : manifestBytes out.chunkManifest ≤ out.narSize.toNat
  rootNode : o.rootNode = some out.rootNode
  root : RootOk out.rootNode
  isCa : out.isCa = claims.isCa
  fileRuns : out.fileRuns = []

theorem checkOutput_eq_ok : checkOutput paths claims refs x = .ok out ↔
    OutputOk paths claims refs x.1 out := by
  obtain ⟨o, i⟩ := x
  obtain ⟨storePath, narHash, narSize, references, rootNode, manifest, isCa, runs⟩ := out
  unfold checkOutput
  simp only [throw_bind, ite_throw_eq_ok]
  cases hh : toDigest o.narHash with
  | none =>
    simp only [throw_ne_ok, and_false, false_iff]
    intro h
    have := toDigest_eq_some.mpr h.narHash
    rw [hh] at this
    cases this
  | some hash =>
    rw [toDigest_eq_some] at hh
    simp only [ite_throw_eq_ok, bind_eq_ok, exists_unit, checkBound_eq_ok,
      mapM_checkReference, mapM_checkChunk, decodeRootNode_eq_ok, pure_eq_ok,
      ValidatedOutput.mk.injEq]
    constructor
    · rintro ⟨hp, ha, hs, hr, _, ⟨hr', hre⟩, hl, _, ⟨hm, hc⟩,
        hb, _, ⟨hro, hroo⟩, rfl, rfl, rfl, rfl, rfl, rfl, rfl, rfl⟩
      rw [not_or] at hs
      exact {
        storePath := rfl
        parses := by simpa using hp
        authorized := by simpa [or_iff_not_imp_left] using ha
        narHash := hh
        narSize := rfl
        narSize_pos := hs.1
        narSize_le := Nat.le_of_not_lt hs.2
        references := hr'
        references_le := hr' ▸ hr
        references_mem := hre
        chunkManifest := hm
        chunks_le := by simpa [hm] using hl
        chunks := hc
        bytes_le := Nat.le_of_not_lt hb
        rootNode := hro
        root := hroo
        isCa := rfl
        fileRuns := rfl }
    · intro h
      obtain rfl : storePath = o.storePath := h.storePath.symm
      obtain rfl : narSize = o.narSize := h.narSize.symm
      obtain rfl : hash = narHash := Subtype.ext (hh.symm.trans h.narHash)
      refine ⟨by simpa using h.parses, ?_, ?_, ?_, references, ⟨h.references, h.references_mem⟩, ?_,
        manifest, ⟨h.chunkManifest, h.chunks⟩, not_lt.mpr h.bytes_le, rootNode,
        ⟨h.rootNode, h.root⟩, rfl, rfl, rfl, rfl, rfl, rfl, h.isCa.symm, h.fileRuns.symm⟩
      · simpa [or_iff_not_imp_left] using h.authorized
      · exact not_or.mpr ⟨h.narSize_pos, not_lt.mpr h.narSize_le⟩
      · rw [h.references]
        exact h.references_le
      · rw [h.chunkManifest, length_map]
        exact h.chunks_le

structure Aligned (dirs : Map Digest Directory) (out out' : ValidatedOutput) : Prop where
  same : ∃ runs, out' = { out with fileRuns := runs }
  walked : (walk out'.rootNode dirs maxNarEntries).2 = none
  cut : Cut out'.chunkManifest 0 (walkFiles (walk out'.rootNode dirs maxNarEntries).1)
    out'.fileRuns out'.chunkManifest.length

theorem aligned_of_ok (h : alignOutput dirs x = .ok out') : Aligned dirs x.1 out' := by
  unfold alignOutput at h
  rw [bind_eq_ok] at h
  obtain ⟨runs, hr, h⟩ := h
  cases h
  obtain ⟨hw, hc⟩ := alignChunkRuns_sound hr
  exact ⟨⟨runs, rfl⟩, hw, hc⟩

theorem Aligned.alignOutput_eq (h : Aligned dirs out out')
    (hck : ∀ c ∈ out.chunkManifest, ChunkSized c) (i : Nat) :
    alignOutput dirs (out, i) = .ok out' := by
  obtain ⟨⟨runs, rfl⟩, hw, hcu⟩ := h
  unfold alignOutput
  rw [bind_eq_ok]
  exact ⟨runs, alignChunkRuns_complete (fun c hc => (hck c hc).1) hw hcu, rfl⟩

theorem mapM_alignOutput (hc : ∀ out ∈ outs, ∀ c ∈ out.chunkManifest, ChunkSized c) :
    outs.zipIdx.mapM (alignOutput dirs) = .ok outs' ↔ List.Forall₂ (Aligned dirs) outs outs' := by
  rw [mapM_eq_ok]
  constructor
  · intro h
    exact forall₂_zipIdx.mp (h.imp fun _ _ => aligned_of_ok)
  · intro h
    have hs : ∀ x ∈ outs.zipIdx, ∀ c ∈ x.1.chunkManifest, ChunkSized c :=
      fun x hx => hc x.1 (fst_mem_of_mem_zipIdx hx)
    have h := (forall₂_and_left _ _).mpr ⟨hs, forall₂_zipIdx.mpr h⟩
    exact h.imp fun x out' hx => hx.2.alignOutput_eq hx.1 x.2

def PutPathChunkedBegin.allowedRefs (begin : PutPathChunkedBegin) : Finset Bytes :=
  (begin.outputs.map (·.storePath)).toFinset ∪ begin.inputClosure.toFinset

theorem foldlM_addOutputPath {os : List ChunkedOutput} :
    os.foldlM addOutputPath seen = .ok seen' ↔ (os.map (·.storePath)).Nodup ∧
      (∀ o ∈ os, o.storePath ∉ seen) ∧ seen' = seen ∪ (os.map (·.storePath)).toFinset := by
  induction os generalizing seen with
  | nil => simp [pure, Except.pure, eq_comm]
  | cons o os ih =>
    rw [foldlM_cons, bind_eq_ok]
    by_cases hm : o.storePath ∈ seen
    · rw [addOutputPath, if_pos hm]
      refine iff_of_false (by simp) ?_
      rintro ⟨-, hn, -⟩
      exact hn o mem_cons_self hm
    · rw [addOutputPath, if_neg hm]
      simp only [Except.ok.injEq, exists_eq_left', ih, List.map_cons, nodup_cons,
        forall_mem_cons, toFinset_cons]
      have hn : (∀ x ∈ os, x.storePath ∉ insert o.storePath seen) ↔
          o.storePath ∉ os.map (·.storePath) ∧ ∀ x ∈ os, x.storePath ∉ seen := by
        simp only [Finset.mem_insert, not_or, mem_map, not_exists, not_and]
        exact forall₂_and
      rw [Finset.insert_union, Finset.union_insert]
      tauto

theorem collectRefs_eq_ok : collectRefs begin = .ok refs ↔
    (begin.outputs.map (·.storePath)).Nodup ∧ refs = begin.allowedRefs := by
  unfold collectRefs PutPathChunkedBegin.allowedRefs
  simp only [bind_eq_ok, foldlM_addOutputPath, pure_eq_ok]
  simp [eq_comm]

structure Passed (k : Codec) (paths : StorePaths) (begin : PutPathChunkedBegin)
    (claims : AssignmentClaims) (outs : List ValidatedOutput) (v : ValidatedBegin) : Prop where
  outputs_ne : begin.outputs ≠ []
  outputs_le : begin.outputs.length ≤ maxBatchOutputs
  closure_le : begin.inputClosure.length ≤ maxInputClosure
  directories_le : begin.directories.length ≤ maxDirNodes
  closure : checkInputClosure k.blake3 paths begin claims = .ok ()
  deriver : checkDeriver paths begin claims = .ok ()
  valid : ∀ d ∈ begin.directories, ValidDirectory d
  nodup : (begin.directories.map k.directoryDigest).Nodup
  directories : v.directories = bodyMap k begin.directories
  storePaths : (begin.outputs.map (·.storePath)).Nodup
  checked : List.Forall₂ (OutputOk paths claims begin.allowedRefs) begin.outputs outs
  reached : ∀ x, x ∈ v.directories.keys ↔ Reached outs v.directories x
  sized : ∀ x d, v.directories.lookup x = some d → ∀ e ∈ d.directories, EntrySized v.directories e
  aligned : List.Forall₂ (Aligned v.directories) outs v.outputs
  oneSize : OneSize (manifestChunks v.outputs)
  novel_le : begin.novel.length ≤ maxBatchOutputs * maxChunks
  novel_eq : begin.novel = v.novel.map Subtype.val
  novel : v.novel.Sublist (Search.unseen ∅ (manifestDigests v.outputs))

theorem validateBegin_eq_ok :
    validateBegin k paths begin claims = .ok v ↔ ∃ outs, Passed k paths begin claims outs v := by
  have houts : ∀ {outs : List ValidatedOutput},
      begin.outputs.zipIdx.mapM (checkOutput paths claims begin.allowedRefs) = .ok outs ↔
        List.Forall₂ (OutputOk paths claims begin.allowedRefs) begin.outputs outs := by
    intro outs
    rw [mapM_eq_ok]
    simp only [checkOutput_eq_ok]
    exact forall₂_zipIdx
  unfold validateBegin
  simp only [throw_bind, ite_throw_eq_ok, bind_eq_ok, exists_unit,
    checkBound_eq_ok, pure_eq_ok, collectDirectories_eq_ok, collectRefs_eq_ok,
    checkDirectoryEntrySizes_eq_ok, validateNovel_eq_ok]
  constructor
  · rintro ⟨hne, hl, hcl, hd, hi, hde, dirs, ⟨hv, hn, hb⟩, refs,
      ⟨hp, rfl⟩, outs, hok, reached, hr, hc, hsz, outs', hru, m, hm, novel, ⟨hle, hnv, hs⟩, rfl⟩
    have hok := houts.mp hok
    refine ⟨outs, hne, hl, hcl, hd, hi, hde, hv, hn, hb, hp, hok,
      fun x => ?_, hsz, (mapM_alignOutput fun out hou => ?_).mp hru,
      checkSizes_isOk.mp ⟨m, hm⟩, hle, hnv, hs⟩
    · obtain ⟨hme, hk⟩ := reachableDigests_sound hr
      rw [← Finset.eq_of_subset_of_card_le hk (not_not.mp hc).ge]
      exact hme x
    · obtain ⟨o, -, ho⟩ := exists_left_of_forall₂ hok hou
      exact ho.chunks
  · rintro ⟨outs, h⟩
    have hou : ∀ out ∈ outs, ∃ o, OutputOk paths claims begin.allowedRefs o out := by
      intro out hou
      obtain ⟨o, -, ho⟩ := exists_left_of_forall₂ h.checked hou
      exact ⟨o, ho⟩
    obtain ⟨reached, hr⟩ : ∃ reached, reachableDigests outs v.directories = .ok reached := by
      refine reachableDigests_complete (fun out hme d hro => ?_) fun x => (h.reached x).mpr
      obtain ⟨o, ho⟩ := hou out hme
      have hl := ho.root
      rw [hro] at hl
      exact ⟨⟨d, hl⟩, rfl⟩
    have hc : reached = v.directories.keys := by
      ext x
      rw [(reachableDigests_sound hr).1 x, h.reached x]
    obtain ⟨m, hm⟩ := checkSizes_isOk.mpr h.oneSize
    refine ⟨h.outputs_ne, h.outputs_le, h.closure_le, h.directories_le, h.closure, h.deriver,
      _, ⟨h.valid, h.nodup, h.directories⟩, _, ⟨h.storePaths, rfl⟩, outs, houts.mpr h.checked,
      reached, hr, not_not.mpr (by rw [hc]), h.sized, _,
      (mapM_alignOutput fun out hme => ?_).mpr h.aligned, m, hm, _,
      ⟨h.novel_le, h.novel_eq, h.novel⟩, rfl⟩
    obtain ⟨o, ho⟩ := hou out hme
    exact ho.chunks

end RioBuild.Chunked
