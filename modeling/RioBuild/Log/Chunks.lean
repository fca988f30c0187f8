import RioBuild.Lib.Bytes
import RioBuild.Lib.Guards
import RioBuild.Log.IngestRun

/-! The payload of a stored chunk, `chunks.rs`: every line behind its length.  The compression is
taken as lossless. -/

namespace RioBuild.Log

open Lib Lib.Word List

structure Zstd where
  encode : Bytes → Bytes
  decode : Bytes → Except String Bytes
  decode_encode : ∀ payload, decode (encode payload) = .ok payload

def Zstd.identity : Zstd := ⟨id, .ok, fun _ => rfl⟩

/-- The framing loop of `compress_lines`. -/
def frameLines : List Line → Except String Bytes
  | [] => .ok []
  | line :: lines =>
    if line.length < 2 ^ 32 then do
      let payload ← frameLines lines
      return leBytes lineLenPrefixBytes line.length ++ line ++ payload
    else .error s!"log line of {line.length} bytes exceeds the u32 length-prefix range"

def payloadLen (lines : List Line) : Nat := (lines.map fun l => l.length + lineLenPrefixBytes).sum

def compressLines (z : Zstd) (lines : List Line) : Except String Bytes := do
  if maxChunkPayloadBytes < payloadLen lines then
    throw (s!"framed chunk payload of {payloadLen lines} bytes exceeds the " ++
      s!"{maxChunkPayloadBytes}-byte shared write/read bound")
  return z.encode (← frameLines lines)

/-- The loop of `decompress_lines`, after `count` lines. -/
def parseLines (count : Nat) (rest : Bytes) : Except String (List Line) :=
  if rest = [] then .ok []
  else if maxChunkLinesAbs ≤ count then
    .error s!"chunk holds more than {maxChunkLinesAbs} lines (absolute read bound)"
  else if h : rest.length < lineLenPrefixBytes then
    .error s!"chunk payload ends mid length-prefix ({rest.length} trailing bytes)"
  else
    let len := leNat (rest.take lineLenPrefixBytes)
    let after := rest.drop lineLenPrefixBytes
    if after.length < len then
      .error (s!"chunk line length prefix ({len} bytes) runs past the payload " ++
        s!"({after.length} bytes remain)")
    else do
      let lines ← parseLines (count + 1) (after.drop len)
      return after.take len :: lines
  termination_by rest.length
  decreasing_by
    simp only [lineLenPrefixBytes] at h
    simp only [length_drop, lineLenPrefixBytes]
    omega

def parsePayload (payload : Bytes) : Except String (List Line) :=
  if maxChunkPayloadBytes < payload.length then
    .error s!"chunk decompresses past the {maxChunkPayloadBytes}-byte bound"
  else parseLines 0 payload

def decompressLines (z : Zstd) (blob : Bytes) : Except String (List Line) := do
  parsePayload (← z.decode blob)

theorem payloadLen_cons :
    payloadLen (line :: lines) = line.length + lineLenPrefixBytes + payloadLen lines := by
  simp [payloadLen]

theorem length_mul_le_payloadLen (lines : List Line) :
    lines.length * lineLenPrefixBytes ≤ payloadLen lines := by
  induction lines with
  | nil => exact Nat.zero_le _
  | cons line lines ih =>
    rw [payloadLen_cons, length_cons, Nat.succ_mul]
    omega

theorem frameLines_cons_eq_ok (h : frameLines (line :: lines) = .ok payload) :
    line.length < 2 ^ 32 ∧ ∃ rest, frameLines lines = .ok rest ∧
      payload = leBytes lineLenPrefixBytes line.length ++ (line ++ rest) := by
  rw [frameLines] at h
  split_ifs at h with hl
  obtain ⟨rest, hf, hp⟩ := Guards.bind_eq_ok.mp h
  cases hp
  exact ⟨hl, rest, hf, append_assoc ..⟩

theorem length_of_frameLines (h : frameLines lines = .ok payload) :
    payload.length = payloadLen lines := by
  induction lines generalizing payload with
  | nil =>
    cases h
    rfl
  | cons line lines ih =>
    obtain ⟨-, rest, hf, rfl⟩ := frameLines_cons_eq_ok h
    rw [payloadLen_cons, ← ih hf, length_append, length_append, length_leBytes]
    omega

theorem frameLines_ok (h : payloadLen lines < 2 ^ 32) :
    ∃ payload, frameLines lines = .ok payload := by
  induction lines with
  | nil => exact ⟨_, rfl⟩
  | cons line lines ih =>
    rw [payloadLen_cons] at h
    obtain ⟨rest, hr⟩ := ih (by omega)
    rw [frameLines, if_pos (by omega), hr]
    exact ⟨_, rfl⟩

theorem parseLines_frameLines (h : frameLines lines = .ok payload)
    (hn : n + lines.length ≤ maxChunkLinesAbs) : parseLines n payload = .ok lines := by
  induction lines generalizing payload n with
  | nil =>
    cases h
    rw [parseLines, if_pos rfl]
  | cons line lines ih =>
    obtain ⟨hl, rest, hf, rfl⟩ := frameLines_cons_eq_ok h
    rw [length_cons] at hn
    have hna : leNat (leBytes lineLenPrefixBytes line.length) = line.length :=
      (leNat_leBytes).trans (Nat.mod_eq_of_lt hl)
    rw [parseLines, if_neg (by simp [leBytes, lineLenPrefixBytes]), if_neg (by omega),
      dif_neg (by simp)]
    simp only [take_left' (length_leBytes _ _), drop_left' (length_leBytes _ _), hna, take_left,
      drop_left, length_append]
    rw [if_neg (by omega), ih hf (by omega)]
    rfl

theorem frameLines_of_parseLines (h : parseLines n payload = .ok lines) :
    frameLines lines = .ok payload := by
  fun_induction parseLines n payload generalizing lines with
  | case1 =>
    cases h
    rfl
  | case2 | case3 | case4 => cases h
  | case5 n rest _ _ hpr len after hl =>
    rename_i ih
    obtain ⟨more, hp, hm⟩ := Guards.bind_eq_ok.mp h
    cases hm
    have hf : (rest.take lineLenPrefixBytes).length = lineLenPrefixBytes := by
      rw [length_take]
      omega
    have hlt : len < 2 ^ 32 := (leNat_lt _).trans_eq (by rw [hf]; rfl)
    have hle : leBytes lineLenPrefixBytes len = rest.take lineLenPrefixBytes := by
      simpa [hf] using leBytes_leNat (rest.take lineLenPrefixBytes)
    have ht : (after.take len).length = len := by
      rw [length_take]
      omega
    rw [frameLines, ht, if_pos hlt, ih hp]
    change Except.ok (leBytes lineLenPrefixBytes len ++ take len after ++ drop len after) = _
    rw [append_assoc, take_append_drop, hle, take_append_drop]

theorem payloadLen_le_chargedPayload (lines : List (Nat × Line)) :
    payloadLen (lines.map Prod.snd) ≤ chargedPayload (lines.map fun p => (p.1, p.2.length)) := by
  induction lines with
  | nil => exact Nat.zero_le _
  | cons p lines ih =>
    rw [map_cons, map_cons, payloadLen_cons, chargedPayload_cons]
    omega

def cut (buffer : List (Nat × Line)) : List Line :=
  (buffer.take (boundedContiguousPrefixLen maxChunkPayloadBytes
    (buffer.map fun p => (p.1, p.2.length)))).map Prod.snd

theorem payloadLen_cut (h : ∀ p ∈ buffer, p.2.length ≤ maxLineContentBytes) :
    payloadLen (cut buffer) ≤ maxChunkPayloadBytes := by
  cases buffer with
  | nil => exact Nat.zero_le _
  | cons p rest =>
    have hp := h p mem_cons_self
    obtain ⟨k, hk⟩ : ∃ k, boundedContiguousPrefixLen maxChunkPayloadBytes
      ((p :: rest).map fun p => (p.1, p.2.length)) = k + 1 := ⟨_, rfl⟩
    have hc := (charged_of_le (by decide) hk.ge).2
    have hr := payloadLen_le_chargedPayload (rest.take k)
    rw [← map_take, chargedPayload_cons] at hc
    dsimp only at hc
    rw [cut, hk, take_succ_cons, map_cons, payloadLen_cons]
    rcases hc with rfl | hc
    · exact (Nat.add_le_add_right hp lineLenPrefixBytes).trans (by decide)
    · omega

theorem decompressLines_compressLines (z : Zstd) (h : payloadLen lines ≤ maxChunkPayloadBytes) :
    lines.length ≤ maxChunkLinesAbs ∧
      ∃ blob, compressLines z lines = .ok blob ∧ decompressLines z blob = .ok lines := by
  have hc : lines.length ≤ maxChunkLinesAbs :=
    (Nat.le_div_iff_mul_le (by decide)).mpr ((length_mul_le_payloadLen lines).trans h)
  have hs : payloadLen lines < 2 ^ 32 := h.trans_lt (by decide)
  obtain ⟨payload, hf⟩ := frameLines_ok hs
  refine ⟨hc, z.encode payload, ?_, ?_⟩
  · rw [compressLines, if_neg (not_lt.mpr h), hf]
    rfl
  · rw [decompressLines, z.decode_encode]
    change parsePayload payload = _
    rw [parsePayload, if_neg (by rw [length_of_frameLines hf]; omega)]
    exact parseLines_frameLines hf (by omega)

theorem frameLines_of_parsePayload (h : parsePayload payload = .ok lines) :
    frameLines lines = .ok payload := by
  rw [parsePayload] at h
  split_ifs at h
  exact frameLines_of_parseLines h

/-- What the cutter takes is written and read back, and its count passes the reader's bound.  A
payload that is accepted is the framing of the lines it gives, so that no two give the same. -/
theorem cut_readable (z : Zstd) : (∀ buffer, (∀ p ∈ buffer, p.2.length ≤ maxLineContentBytes) →
      (cut buffer).length ≤ maxChunkLinesAbs ∧ ∃ blob,
        compressLines z (cut buffer) = .ok blob ∧ decompressLines z blob = .ok (cut buffer)) ∧
    (∀ payload lines, parsePayload payload = .ok lines → frameLines lines = .ok payload) ∧
    ∀ payload payload' lines, parsePayload payload = .ok lines →
      parsePayload payload' = .ok lines → payload = payload' := by
  refine ⟨fun buffer h => decompressLines_compressLines z (payloadLen_cut h),
    fun _ _ => frameLines_of_parsePayload, fun payload payload' lines h h' => ?_⟩
  exact Except.ok.inj ((frameLines_of_parsePayload h).symm.trans (frameLines_of_parsePayload h'))

def gappedBuffer : List (Nat × Line) := [(3, [104, 105]), (4, []), (6, [111])]

theorem cut_readable_gappedBuffer :
    compressLines .identity (cut gappedBuffer) = .ok [2, 0, 0, 0, 104, 105, 0, 0, 0, 0] ∧
      decompressLines .identity [2, 0, 0, 0, 104, 105, 0, 0, 0, 0] = .ok [[104, 105], []] := by
  have hw : compressLines .identity (cut gappedBuffer) =
      .ok [2, 0, 0, 0, 104, 105, 0, 0, 0, 0] := by
    decide +kernel
  obtain ⟨-, blob, hc, hd⟩ := (cut_readable .identity).1 gappedBuffer (by decide)
  cases hw.symm.trans hc
  exact ⟨hw, hd⟩

end RioBuild.Log
