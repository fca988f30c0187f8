import RioBuild.Lib.Bytes

namespace RioBuild.Wire

open Lib List

def maxFrameSize : Nat := 64 * 1024 * 1024

def maxFramedTotal : Nat := 4 * 1024 * 1024 * 1024

inductive WireError where
  | unexpectedEof
  | frameTooLarge (len : Nat)
  | framedStreamTooLarge (total : Nat)
  deriving DecidableEq

/-- The loop of `read_framed_stream`; what has not been read is returned as well. -/
def readFrames (limit : Nat) (result input : Bytes) : Except WireError (Bytes × Bytes) :=
  if input.length < 8 then .error .unexpectedEof
  else if leNat (input.take 8) = 0 then .ok (result, input.drop 8)
  else if leNat (input.take 8) > maxFrameSize then .error (.frameTooLarge (leNat (input.take 8)))
  else if result.length + leNat (input.take 8) > limit then
    .error (.framedStreamTooLarge (result.length + leNat (input.take 8)))
  else if (input.drop 8).length < leNat (input.take 8) then .error .unexpectedEof
  else
    readFrames limit (result ++ (input.drop 8).take (leNat (input.take 8)))
      ((input.drop 8).drop (leNat (input.take 8)))
termination_by input.length
decreasing_by
  simp only [length_drop]
  omega

def readFramedStream (limit : Nat) (input : Bytes) : Except WireError (Bytes × Bytes) :=
  readFrames limit [] input

/-- What a poll of the inner reader does.  It fills at most `n + 1` bytes, and none only at the end
of the stream. -/
inductive Readiness where
  | pending
  | upTo (n : Nat)
  deriving DecidableEq

inductive FramedState where
  | readingHeader
  | readingData
  | done
  deriving DecidableEq

inductive ReadError where
  | closedBeforeSentinel
  | closedMidHeader
  | closedMidData
  | frameSize (len : Nat)
  | totalSize (total : Nat)
  deriving DecidableEq

def ReadError.toWire : ReadError → WireError
  | .closedBeforeSentinel | .closedMidHeader | .closedMidData => .unexpectedEof
  | .frameSize len => .frameTooLarge len
  | .totalSize total => .framedStreamTooLarge total

inductive Poll where
  | pending
  | ready (data : Bytes)
  | failed (e : ReadError)
  deriving DecidableEq

/-- `header` is the part of `header_buf` that has been read. -/
structure FramedStreamReader where
  inner : Bytes
  state : FramedState := .readingHeader
  header : Bytes := []
  frameRemaining : Nat := 0
  totalRead : Nat := 0
  maxTotal : Nat
  deriving DecidableEq

namespace FramedStreamReader

def new (inner : Bytes) (maxTotal : Nat) : FramedStreamReader where
  inner := inner
  maxTotal := min maxTotal maxFramedTotal

def continued (r : FramedStreamReader) : FramedStreamReader :=
  if r.state = .readingData ∧ r.frameRemaining = 0 then { r with state := .readingHeader } else r

def startFrame (r : FramedStreamReader) : Option Poll × FramedStreamReader :=
  let len := leNat r.header
  let r := { r with header := [] }
  if len = 0 then (some (.ready []), { r with state := .done })
  else if len > maxFrameSize then (some (.failed (.frameSize len)), r)
  else if r.totalRead + len > r.maxTotal then (some (.failed (.totalSize (r.totalRead + len))), r)
  else (none, { r with frameRemaining := len, state := .readingData })

/-- One poll of the inner reader that gives up to `n` bytes; without a result the loop goes on. -/
def turn (size n : Nat) (r : FramedStreamReader) : Option Poll × FramedStreamReader :=
  match r.state with
  | .done => (some (.ready []), r)
  | .readingHeader =>
    let got := r.inner.take (min n (8 - r.header.length))
    if got = [] then
      (some (.failed (if r.header = [] then .closedBeforeSentinel else .closedMidHeader)), r)
    else
      let r := { r with inner := r.inner.drop got.length, header := r.header ++ got }
      if r.header.length < 8 then (none, r) else r.startFrame
  | .readingData =>
    let got := r.inner.take (min n (min r.frameRemaining size))
    if got = [] then (some (.failed .closedMidData), r)
    else
      (some (.ready got), { r with
        inner := r.inner.drop got.length
        frameRemaining := r.frameRemaining - got.length
        totalRead := r.totalRead + got.length })

/-- `poll_read` into a buffer of `size` bytes.  The polls of the inner reader are taken from the
schedule; past its end they are pending. -/
def pollRead (size : Nat) (sched : List Readiness) (r : FramedStreamReader) :
    Poll × FramedStreamReader × List Readiness :=
  if r.continued.state = .done ∨ r.continued.state = .readingData ∧ size = 0 then
    (.ready [], r.continued, sched)
  else match sched with
    | [] => (.pending, r.continued, [])
    | .pending :: sched => (.pending, r.continued, sched)
    | .upTo n :: sched =>
      match r.continued.turn size (n + 1) with
      | (some p, r) => (p, r, sched)
      | (none, r) => pollRead size sched r

inductive Outcome where
  | waiting
  | ended
  | failed (e : ReadError)
  deriving DecidableEq

def drain : List Nat → List Readiness → FramedStreamReader → Bytes × Outcome × FramedStreamReader
  | [], _, r => ([], .waiting, r)
  | size :: sizes, sched, r =>
    match r.pollRead size sched with
    | (.pending, r, sched) => drain sizes sched r
    | (.failed e, r, _) => ([], .failed e, r)
    | (.ready [], r, _) => ([], .ended, r)
    | (.ready data, r, sched) =>
      let (out, outcome, r) := drain sizes sched r
      (data ++ out, outcome, r)

variable {r r' : FramedStreamReader} {out : Bytes} {size limit : Nat}

structure Inv (limit : Nat) (r : FramedStreamReader) (out : Bytes) : Prop where
  maxTotal : r.maxTotal = limit
  total : r.totalRead = out.length
  bound : r.totalRead + r.frameRemaining ≤ limit
  header : r.header.length < 8
  data : r.state = .readingData → r.header = []

def owed (r : FramedStreamReader) (out : Bytes) : Except WireError (Bytes × Bytes) :=
  match r.state with
  | .done => .ok (out, r.inner)
  | .readingHeader => readFrames r.maxTotal out (r.header ++ r.inner)
  | .readingData =>
    if r.inner.length < r.frameRemaining then .error .unexpectedEof
    else readFrames r.maxTotal (out ++ r.inner.take r.frameRemaining)
      (r.inner.drop r.frameRemaining)

def Goes (limit : Nat) (r : FramedStreamReader) (out data : Bytes) (r' : FramedStreamReader) :
    Prop :=
  r'.Inv limit (out ++ data) ∧ r'.owed (out ++ data) = r.owed out

def Answers (limit : Nat) (r : FramedStreamReader) (out : Bytes) :
    Poll → FramedStreamReader → Prop
  | .pending, r' => r.Goes limit out [] r'
  | .ready [], r' => r.owed out = .ok (out, r'.inner)
  | .ready (b :: data), r' => r.Goes limit out (b :: data) r'
  | .failed e, _ => r.owed out = .error e.toWire

def Turned (limit : Nat) (r : FramedStreamReader) (out : Bytes) :
    Option Poll × FramedStreamReader → Prop
  | (none, r') => r.Goes limit out [] r' ∧ r'.inner.length < r.inner.length
  | (some p, r') => r.Answers limit out p r' ∧
      (p = .pending ∨ (∃ b data, p = .ready (b :: data)) → r'.inner.length < r.inner.length)

theorem Inv.continued (h : r.Inv limit out) :
    r.continued.Inv limit out ∧ r.continued.owed out = r.owed out ∧ r.continued.inner = r.inner ∧
        (r.continued.state = .readingData → r.continued.frameRemaining ≠ 0) := by
  unfold FramedStreamReader.continued
  split_ifs with he
  · refine ⟨⟨h.maxTotal, h.total, h.bound, h.header, nofun⟩, ?_, rfl, nofun⟩
    simp [owed, he, h.data he.1]
  · exact ⟨h, rfl, rfl, fun hs hzero => he ⟨hs, hzero⟩⟩

theorem startFrame_turned (h : r.Inv limit out) (hs : r.state = .readingHeader)
    (hg : (r.header ++ got).length = 8) {inner : Bytes} (hi : got ++ inner = r.inner)
    (hsh : inner.length < r.inner.length) :
    r.Turned limit out { r with inner := inner, header := r.header ++ got }.startFrame := by
  have ho : r.owed out = readFrames r.maxTotal out ((r.header ++ got) ++ inner) := by
    rw [owed, hs, ← hi, append_assoc]
  rw [readFrames, if_neg (by rw [length_append]; omega), take_left' hg,
    drop_left' hg, ← h.total] at ho
  unfold startFrame
  dsimp only
  split
  · rename_i hzero
    exact ⟨by rw [Answers, ho, if_pos hzero], nofun⟩
  rename_i hzero
  rw [if_neg hzero] at ho
  split
  · rename_i hl
    exact ⟨by rw [Answers, ho, if_pos hl]; rfl, nofun⟩
  rename_i hl
  rw [if_neg hl] at ho
  split_ifs with ht
  · exact ⟨by rw [Answers, ho, if_pos ht]; rfl, nofun⟩
  · rw [if_neg ht] at ho
    refine ⟨⟨⟨h.maxTotal, ?_, ?_, Nat.zero_lt_succ 7, fun _ => rfl⟩, ?_⟩, hsh⟩
    · rw [append_nil]
      exact h.total
    · exact h.maxTotal ▸ le_of_not_gt ht
    · rw [append_nil]
      exact ho.symm

theorem turn_turned (h : r.Inv limit out) (hdo : r.state ≠ .done)
    (hd : r.state = .readingData → r.frameRemaining ≠ 0 ∧ size ≠ 0) (n : Nat) :
    r.Turned limit out (r.turn size (n + 1)) := by
  have hem {k : Nat} hk (hg : r.inner.take k = []) : r.inner = [] :=
    (take_eq_nil_iff.mp hg).resolve_left hk
  have hsp k : r.inner.take k ++ r.inner.drop (r.inner.take k).length = r.inner :=
    prefix_iff_eq_append.mp ( take_prefix k r.inner)
  have hsh {k : Nat} (hg : r.inner.take k ≠ []) :
      (r.inner.drop (r.inner.take k).length).length < r.inner.length := by
    have hp := length_pos_iff.mpr hg
    have hl := congrArg length (hsp k)
    rw [length_append] at hl
    omega
  unfold turn
  split
  · exact absurd ‹_› hdo
  · rename_i hst
    have hh := h.header
    dsimp only
    split
    · rename_i hg
      have ho : r.owed out = .error .unexpectedEof := by
        rw [owed, hst, hem (by omega) hg, append_nil]
        rw [readFrames, if_pos hh]
      refine ⟨?_, nofun⟩
      rw [Answers, ho]
      split <;> rfl
    · rename_i hg
      split_ifs with hlt
      · refine ⟨⟨⟨h.maxTotal, ?_, h.bound, hlt, fun hs => absurd (hst.symm.trans hs) nofun⟩,
          ?_⟩, hsh hg⟩
        · rw [append_nil]
          exact h.total
        · simp only [owed, hst, append_assoc, append_nil, hsp]
      · refine startFrame_turned h hst ?_ (hsp _) (hsh hg)
        rw [length_append, length_take] at hlt ⊢
        omega
  · rename_i hst
    obtain ⟨hr, hsz⟩ := hd hst
    dsimp only
    split_ifs with hg
    · refine ⟨?_, nofun⟩
      rw [Answers, owed, hst, hem (by omega) hg]
      exact if_pos (pos_of_ne_zero hr)
    · have hl : (r.inner.take (min (n + 1) (min r.frameRemaining size))).length ≤
          r.frameRemaining := by
        rw [length_take]
        omega
      specialize hsp (min (n + 1) (min r.frameRemaining size))
      specialize hsh hg
      generalize r.inner.take (min (n + 1) (min r.frameRemaining size)) = got
        at hg hl hsp hsh ⊢
      cases got with
      | nil => exact absurd rfl hg
      | cons b data =>
        have hb := h.bound
        refine ⟨⟨⟨h.maxTotal, ?_, ?_, h.header, h.data⟩, ?_⟩, fun _ => hsh⟩
        · rw [length_append, h.total]
        · dsimp only
          omega
        · have hi := congrArg length hsp
          rw [length_append] at hi
          simp only [owed, hst]
          by_cases he : r.inner.length < r.frameRemaining
          · rw [if_pos he, if_pos (by omega)]
          · rw [if_neg he, if_neg (by omega)]
            obtain ⟨j, hj⟩ := Nat.exists_eq_add_of_le hl
            rw [hj, Nat.add_sub_cancel_left, ← hsp, drop_left, take_length_add_append,
              drop_length_add_append, append_assoc]

def ready (sched : List Readiness) : Nat := sched.countP (· ≠ .pending)

theorem ready_upTo : ready (.upTo n :: sched) = ready sched + 1 :=
  countP_cons_of_pos (by simp)

/-- No byte is read without a poll of the inner reader that is ready. -/
def Spent (r : FramedStreamReader) (sched : List Readiness) (r' : FramedStreamReader)
    (sched' : List Readiness) : Prop :=
  (sched'.length < sched.length ∨ sched = [] ∧ sched' = []) ∧
    ready sched + r'.inner.length ≤ ready sched' + r.inner.length

theorem Answers.congr (ho : r'.owed out = r.owed out)
    (h : r'.Answers limit out p r1) : r.Answers limit out p r1 := by
  cases p with
  | pending => exact ⟨h.1, h.2.trans ho⟩
  | failed e => exact ho.symm.trans h
  | ready data =>
    cases data with
    | nil => exact ho.symm.trans h
    | cons b data => exact ⟨h.1, h.2.trans ho⟩

theorem Inv.goes (h : r.Inv limit out) : r.Goes limit out [] r := by
  rw [Goes, append_nil]
  exact ⟨h, rfl⟩

theorem pollRead_answers (hs : size ≠ 0) (h : r.Inv limit out) (sched : List Readiness) :
    r.Answers limit out (r.pollRead size sched).1 (r.pollRead size sched).2.1 ∧
      ((r.pollRead size sched).1 = .pending ∨
          (∃ b data, (r.pollRead size sched).1 = .ready (b :: data)) →
        r.Spent sched (r.pollRead size sched).2.1 (r.pollRead size sched).2.2) := by
  fun_induction pollRead size sched r with
  | case1 sched r ha =>
    refine ⟨h.continued.2.1.symm.trans ?_, nofun⟩
    rw [owed, ha.resolve_right fun hd => hs hd.2]
  | case2 r =>
    obtain ⟨hi, ho, hin, -⟩ := h.continued
    exact ⟨.congr ho hi.goes, fun _ => ⟨.inr ⟨rfl, rfl⟩, by rw [hin]⟩⟩
  | case3 r _ sched =>
    obtain ⟨hi, ho, hin, -⟩ := h.continued
    refine ⟨.congr ho hi.goes, fun _ => ⟨.inl (Nat.lt_succ_self _), ?_⟩⟩
    rw [hin]
    exact le_rfl
  | case4 r ha n sched p r1 hst =>
    obtain ⟨hi, ho, hin, hr⟩ := h.continued
    have ht := turn_turned hi (fun hdo => ha (.inl hdo)) (fun hd => ⟨hr hd, hs⟩) n
    rw [hst] at ht
    refine ⟨.congr ho ht.1, fun hg => ⟨.inl (Nat.lt_succ_self _), ?_⟩⟩
    have hsh := hin ▸ ht.2 hg
    rw [ready_upTo]
    dsimp only
    omega
  | case5 r ha n sched r1 hst ih =>
    obtain ⟨hi, ho, hin, hr⟩ := h.continued
    have ht := turn_turned hi (fun hdo => ha (.inl hdo)) (fun hd => ⟨hr hd, hs⟩) n
    rw [hst] at ht
    obtain ⟨⟨hi1, ho1⟩, hsh⟩ := ht
    rw [append_nil] at hi1 ho1
    rw [hin] at hsh
    obtain ⟨han, hsp⟩ := ih hi1
    refine ⟨.congr (ho1.trans ho) han, fun hg => ?_⟩
    obtain ⟨hf, hb⟩ := hsp hg
    refine ⟨.inl ?_, ?_⟩
    · rcases hf with hf | ⟨rfl, hn⟩
      · exact Nat.lt_succ_of_lt hf
      · rw [hn]
        exact zero_lt_one
    · rw [ready_upTo]
      omega

def Drained (limit : Nat) (r : FramedStreamReader) (out : Bytes) :
    Bytes × Outcome × FramedStreamReader → Prop
  | (data, .waiting, r') => r.Goes limit out data r'
  | (data, .ended, r') => r.owed out = .ok (out ++ data, r'.inner) ∧ (out ++ data).length ≤ limit
  | (data, .failed e, _) => r.owed out = .error e.toWire ∧ (out ++ data).length ≤ limit

theorem Drained.after {data : Bytes} {d : Bytes × Outcome × FramedStreamReader}
    (hg : r.Goes limit out data r') (h : r'.Drained limit (out ++ data) d) :
    r.Drained limit out (data ++ d.1, d.2) := by
  obtain ⟨rest, outcome, r₁⟩ := d
  cases outcome with
  | waiting =>
    rw [Drained, Goes, ← append_assoc]
    exact ⟨h.1, h.2.trans hg.2⟩
  | ended | failed e =>
    rw [Drained, ← append_assoc, ← hg.2]
    exact h

theorem drain_drained (hsz : ∀ n ∈ sizes, n ≠ 0) (sched : List Readiness)
    (h : r.Inv limit out) : r.Drained limit out (r.drain sizes sched) ∧
      (r.inner.length < ready sched → sched.length < sizes.length →
        (r.drain sizes sched).2.1 ≠ .waiting) := by
  induction sizes generalizing r out sched with
  | nil => exact ⟨h.goes, fun _ hlt => absurd hlt (Nat.not_lt_zero _)⟩
  | cons size sizes ih =>
    have ho : (out ++ []).length ≤ limit := by
      rw [append_nil, ← h.total]
      exact (Nat.le_add_right _ _).trans h.bound
    obtain ⟨hsi, hsz⟩ := forall_mem_cons.mp hsz
    obtain ⟨ha, hs⟩ := pollRead_answers hsi h sched
    rw [drain]
    cases hp : r.pollRead size sched with
    | mk p rest =>
      obtain ⟨r1, sched1⟩ := rest
      rw [hp] at ha hs
      have hl (hs : r.Spent sched r1 sched1) (hr : r.inner.length < ready sched)
          (hlength : sched.length < sizes.length + 1) :
          r1.inner.length < ready sched1 ∧ sched1.length < sizes.length := by
        obtain ⟨hf | ⟨rfl, rfl⟩, hb⟩ := hs
        · omega
        · exact absurd hr (Nat.not_lt_zero _)
      cases p with
      | pending =>
        obtain ⟨hre, he⟩ := ih hsz sched1 ha.1
        refine ⟨hre.after ha, fun hr hlength => ?_⟩
        obtain ⟨hr, hlength⟩ := hl (hs (.inl rfl)) hr hlength
        exact he hr hlength
      | failed e => exact ⟨⟨ha, ho⟩, nofun⟩
      | ready data =>
        cases data with
        | nil =>
          refine ⟨⟨?_, ho⟩, nofun⟩
          rw [append_nil]
          exact ha
        | cons b data =>
          obtain ⟨hre, he⟩ := ih hsz sched1 ha.1
          refine ⟨hre.after ha, fun hr hlength => ?_⟩
          obtain ⟨hr, hlength⟩ := hl (hs (.inr ⟨b, data, rfl⟩)) hr hlength
          exact he hr hlength

end FramedStreamReader

inductive Frames : Bytes → Bytes → Prop
  | sentinel (header : Bytes) (hlength : header.length = 8) (hzero : leNat header = 0) :
    Frames [] header
  | frame (header chunk : Bytes) (hlength : header.length = 8)
    (hchunk : leNat header = chunk.length) (hne : chunk ≠ []) {out input : Bytes}
    (h : Frames out input) :
    Frames (chunk ++ out) (header ++ chunk ++ input)

theorem frames_of_readFrames (h : readFrames limit result input = .ok (out, rest)) :
    ∃ data frames, out = result ++ data ∧ input = frames ++ rest ∧ Frames data frames := by
  fun_induction readFrames limit result input with
  | case1 | case3 | case4 | case5 => cases h
  | case2 result input hlength hzero =>
    cases h
    refine ⟨[], input.take 8, (append_nil _).symm, (take_append_drop 8 input).symm, ?_⟩
    exact .sentinel _ (length_take_of_le (Nat.le_of_not_lt hlength)) hzero
  | case6 result input hlength hzero hl ht hs ih =>
    obtain ⟨data, frames, rfl, hr, hf⟩ := ih h
    have hchunk := length_take_of_le (Nat.le_of_not_lt hs)
    refine ⟨_, _, append_assoc _ _ _, ?_, .frame (input.take 8) _
      (length_take_of_le (Nat.le_of_not_lt hlength)) hchunk.symm ?_ hf⟩
    · rw [append_assoc, append_assoc, ← hr, take_append_drop, take_append_drop]
    · intro hn
      rw [hn] at hchunk
      exact hzero hchunk.symm

theorem FramedStreamReader.prefix_of_owed {r : FramedStreamReader}
    (h : r.owed out = .ok (result, rest)) : out <+: result := by
  unfold owed at h
  split at h
  · cases h
    exact prefix_rfl
  · obtain ⟨data, -, rfl, -⟩ := frames_of_readFrames h
    exact prefix_append _ _
  · split at h
    · cases h
    · obtain ⟨data, -, rfl, -⟩ := frames_of_readFrames h
      rw [append_assoc]
      exact prefix_append _ _

theorem framedStreamReader_refines (input : Bytes) (limit : Nat) (sched : List Readiness)
    (sizes : List Nat) (hsizes : ∀ n ∈ sizes, n ≠ 0) :
    ∃ out outcome r, (FramedStreamReader.new input limit).drain sizes sched = (out, outcome, r) ∧
      out.length ≤ min limit maxFramedTotal ∧
      (match outcome with
        | .waiting => ∀ result rest,
          readFramedStream (min limit maxFramedTotal) input = .ok (result, rest) → out <+: result
        | .ended => readFramedStream (min limit maxFramedTotal) input = .ok (out, r.inner) ∧
          ∃ frames, Frames out frames ∧ input = frames ++ r.inner
        | .failed e => readFramedStream (min limit maxFramedTotal) input = .error e.toWire) ∧
      (input.length < sched.countP (· ≠ .pending) → sched.length < sizes.length →
        outcome ≠ .waiting) := by
  have hn : (FramedStreamReader.new input limit).Inv (min limit maxFramedTotal) [] :=
    ⟨rfl, rfl, Nat.zero_le _, Nat.zero_lt_succ 7, nofun⟩
  obtain ⟨hd, he⟩ := FramedStreamReader.drain_drained hsizes sched hn
  cases hdrai : (FramedStreamReader.new input limit).drain sizes sched with
  | mk out rest =>
    obtain ⟨outcome, r⟩ := rest
    rw [hdrai] at hd he
    cases outcome with
    | waiting =>
      refine ⟨out, .waiting, r, rfl, ?_, fun result rest ho => ?_, he⟩
      · exact hd.1.total ▸ (Nat.le_add_right _ _).trans hd.1.bound
      · exact FramedStreamReader.prefix_of_owed (hd.2.trans ho)
    | ended =>
      obtain ⟨ho, hlength⟩ := hd
      obtain ⟨data, frames, rfl, hi, hf⟩ := frames_of_readFrames ho
      exact ⟨_, .ended, r, rfl, hlength, ⟨ho, frames, hf, hi⟩, he⟩
    | failed e => exact ⟨out, .failed e, r, rfl, hd.2, hd.1, he⟩

theorem framedStreamReader_refines_oneFrame :
    ∃ out outcome r, (FramedStreamReader.new ([1, 0, 0, 0, 0, 0, 0, 0, 65] ++ replicate 9 0)
        100).drain (replicate 21 1) (.pending :: replicate 19 (.upTo 0)) = (out, outcome, r) ∧
      outcome ≠ .waiting := by
  obtain ⟨out, outcome, r, hd, -, -, he⟩ := framedStreamReader_refines
    ([1, 0, 0, 0, 0, 0, 0, 0, 65] ++ replicate 9 0) 100 (.pending :: replicate 19 (.upTo 0))
    (replicate 21 1) (by decide)
  exact ⟨out, outcome, r, hd, he (by decide) (by decide)⟩

end RioBuild.Wire
