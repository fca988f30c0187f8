import RioBuild.Log.Ingest

namespace RioBuild.Log

open Lib Lib.Word List IngestShared

theorem take_boundedPrefixFrom (cost : α → Nat) (maxPayload previous framed : Nat)
    (lines : List (Nat × α)) :
    let k := boundedPrefixFrom maxPayload previous framed (lines.map fun p => (p.1, cost p.2))
    lines.take k = numberFrom (previous + 1) ((lines.take k).map Prod.snd) := by
  induction lines generalizing previous framed with
  | nil => rfl
  | cons p lines ih =>
    simp only [map_cons, boundedPrefixFrom]
    split
    · rfl
    · rename_i hne
      split
      · rfl
      · have hn := (checkedAdd_eq_some.mp (not_not.mp hne)).1
        rw [take_succ_cons, map_cons, hn]
        exact congrArg (p :: ·) (ih p.1 _)

def chargedPayload (lines : List (Nat × Nat)) : Nat :=
  (lines.map fun p => p.2 + perLineOverheadBytes + lineLenPrefixBytes).sum

@[simp] theorem chargedPayload_cons : chargedPayload (p :: lines) =
    p.2 + perLineOverheadBytes + lineLenPrefixBytes + chargedPayload lines := by
  simp [chargedPayload]

theorem length_mul_le_chargedPayload (lines : List (Nat × Nat)) :
    lines.length * (perLineOverheadBytes + lineLenPrefixBytes) ≤ chargedPayload lines := by
  induction lines with
  | nil => exact Nat.zero_le _
  | cons p lines ih =>
    rw [chargedPayload_cons, length_cons, Nat.succ_mul]
    omega

/-- The running charge is the exact one, cut off at the largest word. -/
theorem saturatingAdd_charge :
    saturatingAdd (min total u64Max) (saturatingAdd (chargedLineCost len) lineLenPrefixBytes) =
      min (total + (len + perLineOverheadBytes + lineLenPrefixBytes)) u64Max := by
  simp only [saturatingAdd, chargedLineCost]
  omega

theorem le_boundedPrefixFrom :
    k ≤ boundedPrefixFrom maxPayload previous (min total u64Max) lines ↔
      (lines.take k).map Prod.fst = range' (previous + 1) k ∧ (k = 0 ∨ previous + k ≤ u64Max ∧
        min (total + chargedPayload (lines.take k)) u64Max ≤ maxPayload) := by
  induction lines generalizing k previous total with
  | nil => cases k <;> simp [boundedPrefixFrom, range'_succ]
  | cons p lines ih =>
    cases k with
    | zero => simp
    | succ k =>
      simp only [boundedPrefixFrom, saturatingAdd_charge, take_succ_cons, map_cons, range'_succ,
        cons.injEq, chargedPayload_cons]
      split_ifs with hn hp
      · refine iff_of_false (by omega) ?_
        rintro ⟨⟨he, -⟩, hk⟩
        have := hk.resolve_left id
        exact hn (checkedAdd_eq_some.mpr ⟨he.symm, by omega⟩)
      · refine iff_of_false (by omega) ?_
        rintro ⟨-, hk⟩
        have := hk.resolve_left id
        omega
      · obtain ⟨hn, hu⟩ := checkedAdd_eq_some.mp (not_not.mp hn)
        rw [Nat.add_le_add_iff_right, ih, hn, and_iff_right rfl, and_congr_right_iff, false_or]
        rintro -
        rcases k with - | k
        · exact iff_of_true (.inl rfl) ⟨hu, not_lt.mp hp⟩
        · omega

def Consecutive (lines : List (Nat × Nat)) : Prop :=
  ∃ first, lines.map Prod.fst = range' first lines.length

/-- A chunk within the payload limit; a single line always is. -/
def LegalChunk (maxPayload : Nat) (lines : List (Nat × Nat)) : Prop :=
  Consecutive lines ∧ (lines.length = 1 ∨ chargedPayload lines ≤ maxPayload)

def drainRuns (maxPayload : Nat) : List (Nat × Nat) → List (List (Nat × Nat))
  | [] => []
  | p :: lines =>
    let k := boundedContiguousPrefixLen maxPayload (p :: lines)
    (p :: lines).take k :: drainRuns maxPayload ((p :: lines).drop k)
  termination_by lines => lines.length
  decreasing_by simp only [boundedContiguousPrefixLen, length_drop, length_cons]; omega

theorem le_boundedContiguousPrefixLen :
    k + 1 ≤ boundedContiguousPrefixLen maxPayload (p :: lines) ↔
      (lines.take k).map Prod.fst = range' (p.1 + 1) k ∧ (k = 0 ∨ p.1 + k ≤ u64Max ∧
        min (chargedPayload (p :: lines.take k)) u64Max ≤ maxPayload) := by
  have hs : saturatingAdd (chargedLineCost p.2) lineLenPrefixBytes =
      min (p.2 + perLineOverheadBytes + lineLenPrefixBytes) u64Max := by
    simp only [saturatingAdd, chargedLineCost]
    omega
  rw [boundedContiguousPrefixLen, Nat.add_le_add_iff_right, hs, le_boundedPrefixFrom,
    chargedPayload_cons]

theorem charged_of_le (hm : maxPayload < u64Max)
    (h : k + 1 ≤ boundedContiguousPrefixLen maxPayload (p :: lines)) :
    (lines.take k).map Prod.fst = range' (p.1 + 1) k ∧
      (k = 0 ∨ chargedPayload (p :: lines.take k) ≤ maxPayload) := by
  obtain ⟨hr, hc⟩ := le_boundedContiguousPrefixLen.mp h
  rw [min_le_iff, or_iff_left (not_le.mpr hm)] at hc
  exact ⟨hr, hc.imp_right And.right⟩

theorem consecutive_take (maxPayload : Nat) (lines : List (Nat × Nat)) :
    Consecutive (lines.take (boundedContiguousPrefixLen maxPayload lines)) := by
  cases lines with
  | nil => exact ⟨0, rfl⟩
  | cons p lines =>
    have ht := take_boundedPrefixFrom id maxPayload p.1
      (saturatingAdd (chargedLineCost p.2) lineLenPrefixBytes) lines
    simp only [id, Prod.mk.eta, map_id'] at ht
    refine ⟨p.1, ?_⟩
    rw [boundedContiguousPrefixLen, take_succ_cons, map_cons, length_cons, range'_succ, ht,
      map_fst_numberFrom, length_map, length_numberFrom, length_map]

theorem le_iff_consecutive (hw : ∀ q ∈ p :: lines, q.1 ≤ u64Max) :
    k + 1 ≤ boundedContiguousPrefixLen maxPayload (p :: lines) ↔
      k + 1 ≤ (p :: lines).length ∧ Consecutive ((p :: lines).take (k + 1)) ∧
        (k = 0 ∨ min (chargedPayload ((p :: lines).take (k + 1))) u64Max ≤ maxPayload) := by
  rw [le_boundedContiguousPrefixLen, take_succ_cons, length_cons, Nat.add_le_add_iff_right]
  constructor
  · rintro ⟨hr, hc⟩
    have hk : k ≤ lines.length := by simpa using congrArg length hr
    refine ⟨hk, ⟨p.1, ?_⟩, hc.imp_right And.right⟩
    rw [map_cons, hr, length_cons, length_take_of_le hk, range'_succ]
  · rintro ⟨hk, ⟨first, hf⟩, hc⟩
    rw [map_cons, length_cons, length_take_of_le hk, range'_succ, cons.injEq] at hf
    obtain ⟨rfl, hr⟩ := hf
    refine ⟨hr, ?_⟩
    rcases k.eq_zero_or_pos with h0 | hp
    · exact .inl h0
    · refine .inr ⟨?_, hc.resolve_left (by omega)⟩
      -- The last number of the run is one of the list.
      have hlast : p.1 + k ∈ (lines.take k).map Prod.fst := by
        rw [hr, mem_range'_1]
        omega
      obtain ⟨q, hq, he⟩ := mem_map.mp hlast
      exact he ▸ hw q (mem_cons_of_mem p (mem_of_mem_take hq))

theorem isGreatest_iff_legalChunk (hw : ∀ p ∈ lines, p.1 ≤ u64Max) (hne : lines ≠ []) :
    IsGreatest {k | 1 ≤ k ∧ k ≤ lines.length ∧ LegalChunk maxPayload (lines.take k)}
        (boundedContiguousPrefixLen maxPayload lines) ↔
      LegalChunk maxPayload (lines.take (boundedContiguousPrefixLen maxPayload lines)) := by
  obtain ⟨p, lines, rfl⟩ := exists_cons_of_ne_nil hne
  have hi (k) : k + 1 ≤ boundedContiguousPrefixLen maxPayload (p :: lines) ↔ _ :=
    le_iff_consecutive hw
  refine ⟨fun h => h.1.2.2, fun h => ⟨⟨Nat.le_add_left 1 _, ((hi _).mp le_rfl).1, h⟩, ?_⟩⟩
  rintro (_ | k) ⟨hk, hl, hc⟩
  · omega
  · refine (hi k).mpr ⟨hl, hc.1, ?_⟩
    have := hc.2
    rw [length_take_of_le hl] at this
    omega

theorem boundedPrefixFrom_eq (hm : u64Max ≤ maxPayload) : boundedPrefixFrom maxPayload previous
    framed lines = contiguousPrefixFrom previous (lines.map Prod.fst) := by
  induction lines generalizing previous framed with
  | nil => rfl
  | cons p lines ih =>
    have hf (a b : Nat) : ¬maxPayload < saturatingAdd a b :=
      not_lt.mpr ((min_le_right _ _).trans hm)
    simp only [boundedPrefixFrom, contiguousPrefixFrom, map_cons, hf, if_false, ih]

theorem boundedContiguousPrefixLen_eq (hm : u64Max ≤ maxPayload) (lines : List (Nat × Nat)) :
    boundedContiguousPrefixLen maxPayload lines = contiguousPrefixLen (lines.map Prod.fst) := by
  cases lines with
  | nil => rfl
  | cons p lines => exact congrArg (· + 1) (boundedPrefixFrom_eq hm)

theorem legalChunk_take_iff (hw : ∀ p ∈ lines, p.1 ≤ u64Max) (hne : lines ≠ []) :
    LegalChunk maxPayload (lines.take (boundedContiguousPrefixLen maxPayload lines)) ↔
      maxPayload < u64Max ∨ contiguousPrefixLen (lines.map Prod.fst) = 1 ∨
        chargedPayload (lines.take (contiguousPrefixLen (lines.map Prod.fst))) ≤ maxPayload := by
  obtain ⟨p, rest, rfl⟩ := exists_cons_of_ne_nil hne
  obtain ⟨k, hk⟩ : ∃ k, boundedContiguousPrefixLen maxPayload (p :: rest) = k + 1 := ⟨_, rfl⟩
  obtain ⟨hl, hc, hs⟩ := (le_iff_consecutive hw).mp hk.ge
  rcases lt_or_ge maxPayload u64Max with hm | hm
  · -- below the largest word the charge is exact
    rw [min_le_iff, or_iff_left (not_le.mpr hm)] at hs
    refine iff_of_true ?_ (.inl hm)
    rw [hk, LegalChunk, length_take_of_le hl]
    exact ⟨hc, hs.imp_left (congrArg (· + 1))⟩
  · rw [← boundedContiguousPrefixLen_eq hm, hk, LegalChunk, and_iff_right hc,
      length_take_of_le hl, or_iff_right (not_lt.mpr hm)]

/-- The cutter takes the longest chunk that is legal exactly if the limit is below the largest word
or the longest consecutive prefix is legal at it; and draining takes a list apart. -/
theorem boundedContiguousPrefixLen_longest (maxPayload : Nat) (lines : List (Nat × Nat))
    (hw : ∀ p ∈ lines, p.1 ≤ u64Max) :
    (boundedContiguousPrefixLen maxPayload lines = 0 ↔ lines = []) ∧
    (lines ≠ [] →
      (IsGreatest {k | 1 ≤ k ∧ k ≤ lines.length ∧ LegalChunk maxPayload (lines.take k)}
          (boundedContiguousPrefixLen maxPayload lines) ↔
        maxPayload < u64Max ∨ contiguousPrefixLen (lines.map Prod.fst) = 1 ∨
          chargedPayload (lines.take (contiguousPrefixLen (lines.map Prod.fst))) ≤ maxPayload)) ∧
    (drainRuns maxPayload lines).flatten = lines ∧
    ∀ run ∈ drainRuns maxPayload lines, run ≠ [] ∧ Consecutive run := by
  refine ⟨?_, fun hne => ?_, ?_⟩
  · cases lines <;> simp [boundedContiguousPrefixLen]
  · exact (isGreatest_iff_legalChunk hw hne).trans (legalChunk_take_iff hw hne)
  · clear hw
    fun_induction drainRuns maxPayload lines with
    | case1 => simp
    | case2 p lines k ih =>
      refine ⟨by rw [flatten_cons, ih.1, take_append_drop], ?_⟩
      rw [forall_mem_cons]
      exact ⟨⟨cons_ne_nil p _, consecutive_take maxPayload _⟩, ih.2⟩

/-- At the largest limit the charge sticks to it and the prefix goes on. -/
theorem boundedContiguousPrefixLen_saturated :
    boundedContiguousPrefixLen u64Max [(0, u64Max), (1, 0)] = 2 ∧
      ¬LegalChunk u64Max ([(0, u64Max), (1, 0)].take 2) :=
  ⟨by decide, fun h => absurd h.2 (by decide)⟩

theorem boundedContiguousPrefixLen_longest_gap :
    IsGreatest {k | 1 ≤ k ∧ k ≤ 3 ∧ LegalChunk 100 ([(5, 1), (6, 1), (8, 1)].take k)} 2 ∧
      IsGreatest {k | 1 ≤ k ∧ k ≤ 3 ∧ LegalChunk u64Max ([(0, 1), (1, 5), (3, 2)].take k)} 2 :=
  ⟨((boundedContiguousPrefixLen_longest 100 [(5, 1), (6, 1), (8, 1)] (by decide)).2.1
      (by decide)).mpr (by decide),
    ((boundedContiguousPrefixLen_longest u64Max [(0, 1), (1, 5), (3, 2)] (by decide)).2.1
      (by decide)).mpr (by decide)⟩

theorem accountedBytes_append (l m : List (Nat × Line)) :
    accountedBytes (l ++ m) = accountedBytes l + accountedBytes m := by
  simp [accountedBytes]

theorem accountedBytes_numberFrom (n : Nat) :
    accountedBytes (numberFrom n lines) = (lines.map accountedLen).sum := by
  induction lines generalizing n with
  | nil => rfl
  | cons l lines ih => simpa [accountedBytes] using ih (n + 1)

namespace IngestShared

variable (sh : IngestShared)

@[simp] theorem pending_restoreInFlight : sh.restoreInFlight.pending = sh.pending := by
  unfold restoreInFlight pending
  split
  all_goals rfl

@[simp] theorem inFlight_restoreInFlight : sh.restoreInFlight.inFlight = [] := by
  unfold restoreInFlight
  split
  · assumption
  · rfl

@[simp] theorem buffer_restoreInFlight : sh.restoreInFlight.buffer = sh.pending := by
  unfold restoreInFlight pending
  split
  · rename_i h
    rw [h, nil_append]
  · rfl

@[simp] theorem oldestPendingSince_restoreInFlight :
    sh.restoreInFlight.oldestPendingSince = sh.oldestPendingSince := by
  unfold restoreInFlight
  split
  all_goals rfl

theorem bufferBytes_restoreInFlight (h : sh.bufferBytes = accountedBytes sh.buffer) :
    sh.restoreInFlight.bufferBytes = accountedBytes sh.restoreInFlight.buffer := by
  unfold restoreInFlight
  split
  · exact h
  · rw [h, accountedBytes_append, add_comm]

@[simp] theorem pending_stage (h : sh.inFlight = []) : sh.stage.pending = sh.pending := by
  rw [pending, pending, h]
  exact take_append_drop _ _

theorem bufferBytes_stage (h : sh.bufferBytes = accountedBytes sh.buffer) :
    sh.stage.bufferBytes = accountedBytes sh.stage.buffer := by
  have hs := accountedBytes_append (sh.buffer.take sh.runLen) (sh.buffer.drop sh.runLen)
  rw [take_append_drop] at hs
  simp only [stage]
  omega

theorem inFlight_stage (h : sh.buffer = p :: rest) :
    sh.stage.inFlight = numberFrom p.1 (sh.stage.inFlight.map Prod.snd) ∧
      sh.stage.inFlight ≠ [] := by
  have ht := take_boundedPrefixFrom length maxChunkPayloadBytes p.1
    (saturatingAdd (chargedLineCost p.2.length) lineLenPrefixBytes) rest
  simp only [stage, runLen, h]
  exact ⟨congrArg (p :: ·) ht, cons_ne_nil _ _⟩

section FanOut

variable (sends : Nat → TrySend) (b : FanBatch)

@[simp] theorem buffer_fanOut : (sh.fanOut sends b).buffer = sh.buffer := by
  unfold fanOut
  dsimp only
  split <;> rfl

@[simp] theorem inFlight_fanOut : (sh.fanOut sends b).inFlight = sh.inFlight := by
  unfold fanOut
  dsimp only
  split <;> rfl

@[simp] theorem bufferBytes_fanOut : (sh.fanOut sends b).bufferBytes = sh.bufferBytes := by
  unfold fanOut
  dsimp only
  split <;> rfl

@[simp] theorem oldestPendingSince_fanOut :
    (sh.fanOut sends b).oldestPendingSince = sh.oldestPendingSince := by
  unfold fanOut
  dsimp only
  split <;> rfl

end FanOut

end IngestShared

def Admission.lines : Admission → List (Nat × Line)
  | .buffered b _ => numberFrom b.firstLineNumber b.lines
  | _ => []

def AcceptOutcome.ack : AcceptOutcome → Option Nat
  | .coveredReplay v => v
  | _ => none

namespace IngestSession

variable {s : IngestSession} {batch b : BuildLogBatch} {stop : Nat}

theorem trimFloor_ne_nil (hne : batch.lines ≠ [])
    (hf : ¬(batch.firstLineNumber < floor ∧
      saturatingAdd batch.firstLineNumber (batch.lines.length - 1) < floor)) :
    (trimFloor floor batch).lines ≠ [] := by
  unfold trimFloor
  split
  · have := saturatingAdd_le batch.firstLineNumber (batch.lines.length - 1)
    refine ne_nil_of_length_pos ?_
    rw [length_drop]
    omega
  · exact hne

structure Buffers (s : IngestSession) (b : BuildLogBatch) (stop : Nat) : Prop where
  monotone : s.highWaterLine ≤ b.firstLineNumber
  nonempty : b.lines ≠ []
  stop_eq : stop = b.firstLineNumber + b.lines.length
  representable : stop ≤ i64Max
  below_final : ∀ n ∈ s.finalLineCount, stop ≤ n
  within_cap : saturatingAdd s.acceptedBytes (b.lines.map accountedLen).sum ≤
    s.config.perExecByteCap

theorem buffers_of_admission (h : s.admission batch = .buffered b stop) : s.Buffers b stop := by
  unfold admission at h
  dsimp only at h
  split_ifs at h with he hf
  have hne := trimFloor_ne_nil he hf
  generalize trimFloor s.sessionFloor batch = t at h hne
  have hp : 0 < t.lines.length := length_pos_iff.mpr hne
  split at h
  iterate 4 cases h
  rename_i e hv
  obtain ⟨hm, _, hle, hr, hfi, hlt⟩ := acceptVerdict_eq_accepted hv
  have hl : (if e < t.firstLineNumber + t.lines.length then
      t.lines.take (e - t.firstLineNumber) else t.lines).length = e - t.firstLineNumber := by
    split
    · rw [length_take]
      omega
    · omega
  generalize (if e < t.firstLineNumber + t.lines.length then
      t.lines.take (e - t.firstLineNumber) else t.lines) = kept at h hl
  split_ifs at h with hcv hc
  injection h with hb hs
  subst hb hs
  refine ⟨hm, ?_, ?_, hr, fun n hn => (hfi n hn).2, not_lt.mp hc⟩
  · refine ne_nil_of_length_pos ?_
    rw [length_map]
    omega
  · simp only [length_map]
    omega

theorem le_frontier_of_ack (h : s.clampedDurableAck n = some v) :
    ∃ frontier, s.durableFrontier = some frontier ∧ v ≤ frontier := by
  obtain ⟨frontier, hf, rfl⟩ := Option.map_eq_some_iff.mp h
  exact ⟨frontier, hf, min_le_right _ _⟩

theorem highWater_le_of_covered (h : s.admission batch = .covered stop) :
    s.highWaterLine ≤ stop := by
  unfold admission at h
  dsimp only at h
  split_ifs at h with he hf
  have hne := trimFloor_ne_nil he hf
  split at h
  iterate 4 cases h
  rename_i e hv
  obtain ⟨hm, _, _, _, _, hlt⟩ := acceptVerdict_eq_accepted hv
  split_ifs at h
  injection h with h
  subst h
  exact hm.trans (hlt (length_pos_iff.mpr hne)).le

theorem ack_eq_none_of_rejected (h : s.admission batch = .rejected o) : o.ack = none := by
  unfold admission at h
  dsimp only at h
  split_ifs at h
  split at h
  iterate 4
    injection h with h
    subst h
    rfl
  split_ifs at h

theorem accept_cases (s : IngestSession) (now : Nat) (sends : Nat → TrySend)
    (batch : BuildLogBatch) :
    (∃ e, s.accept now sends batch = .error e ∧ (s.admission batch).lines = []) ∨
      (∃ hw o, s.accept now sends batch = .ok ({ s with highWaterLine := hw }, o) ∧
        s.highWaterLine ≤ hw ∧ (s.admission batch).lines = [] ∧
        ∀ v ∈ o.ack, ∃ frontier, s.durableFrontier = some frontier ∧ v ≤ frontier) ∨
      ∃ b stop, s.accept now sends batch =
          .ok (s.append now sends b stop, .accepted (s.append now sends b stop).cutDue) ∧
        s.Buffers b stop ∧ s.admission batch = .buffered b stop := by
  unfold accept
  cases ha : s.admission batch with
  | keepalive =>
    exact .inr (.inl ⟨s.highWaterLine, _, rfl, le_rfl, rfl, by simp [AcceptOutcome.ack]⟩)
  | belowFloor last =>
    exact .inr (.inl ⟨_, _, rfl, le_max_left _ _, rfl, fun v hv => le_frontier_of_ack hv⟩)
  | rejected o =>
    refine .inr (.inl ⟨s.highWaterLine, o, rfl, le_rfl, rfl, fun v hv => ?_⟩)
    rw [ack_eq_none_of_rejected ha] at hv
    cases hv
  | covered stop =>
    exact .inr (.inl ⟨stop, _, rfl, highWater_le_of_covered ha, rfl,
      fun v hv => le_frontier_of_ack hv⟩)
  | overCap => exact .inl ⟨_, rfl, rfl⟩
  | buffered b stop => exact .inr (.inr ⟨b, stop, rfl, buffers_of_admission ha, rfl⟩)

theorem pending_append : (s.append now sends b stop).shared.pending =
    s.shared.pending ++ numberFrom b.firstLineNumber b.lines := by
  simp only [append, pending]
  split <;> simp

theorem pending_beginCut (s : IngestSession) : s.beginCut.1.shared.pending = s.shared.pending := by
  unfold beginCut
  dsimp only
  split <;> simp

theorem beginCut_none (h : s.beginCut.2 = none) :
    s.shared.pending = [] ∧ s.beginCut.1 = { s with shared := s.shared.restoreInFlight } := by
  unfold beginCut at h ⊢
  simp only [buffer_restoreInFlight] at h ⊢
  cases hp : s.shared.pending with
  | nil => exact ⟨rfl, rfl⟩
  | cons p rest => simp [hp] at h

theorem beginCut_some (h : s.beginCut.2 = some a) : s.beginCut.1 =
      { s with shared := s.shared.restoreInFlight.stage, nextSeq := s.nextSeq + 1 } ∧
    a.seq = s.nextSeq ∧ a.lines ≠ [] ∧ s.beginCut.1.shared.inFlight = a.numbered := by
  unfold beginCut at h ⊢
  simp only [buffer_restoreInFlight] at h ⊢
  cases hp : s.shared.pending with
  | nil => simp [hp] at h
  | cons p rest =>
    simp only [hp, Option.some.injEq] at h
    obtain ⟨hr, hne⟩ := inFlight_stage s.shared.restoreInFlight
      ((buffer_restoreInFlight _).trans hp)
    subst h
    exact ⟨rfl, rfl, by simpa using hne, hr⟩

end IngestSession

structure IngestRun where
  session : IngestSession
  active : Option Attempt := none
  accepted : List (Nat × Line) := []
  committed : List Attempt := []
  attempts : List Attempt := []

inductive IngestEvent
  | accept (now : Nat) (sends : Nat → TrySend) (batch : BuildLogBatch)
  | finalLineCount (n : Nat)
  | readers (subscribers : List Subscriber)
  | beginCut
  | cutSucceeded (now : Nat)
  | cutFailed
  | cutAbandoned

namespace IngestRun

/-- The driver starts no cut once the execution's chunk attempts are used up. -/
def step (maxChunksPerExec : UInt32) (r : IngestRun) : IngestEvent → IngestRun
  | .accept now sends batch => match r.session.accept now sends batch with
    | .ok (session, _) =>
      { r with session, accepted := r.accepted ++ (r.session.admission batch).lines }
    | .error _ => r
  | .finalLineCount n => { r with session := r.session.setFinalLineCount n }
  | .readers subscribers =>
    { r with session := { r.session with shared := { r.session.shared with subscribers } } }
  | .beginCut =>
    if r.session.chunkAttempts < maxChunksPerExec then
      { r with
        session := r.session.beginCut.1
        active := r.session.beginCut.2
        attempts := r.attempts ++ r.session.beginCut.2.toList }
    else r
  | .cutSucceeded now => match r.active with
    | some a =>
      { r with
        session := (r.session.finishCut now a).1
        active := none
        committed := r.committed ++ [a] }
    | none => r
  | .cutFailed => match r.active with
    | some _ => { r with session := r.session.failCut, active := none }
    | none => r
  | .cutAbandoned => match r.active with
    | some _ => { r with session := r.session.noteCutAbandoned, active := none }
    | none => r

def run (maxChunksPerExec : UInt32) (r : IngestRun) (events : List IngestEvent) : IngestRun :=
  events.foldl (step maxChunksPerExec) r

/-- What every step of a session keeps; `seed` is what it was charged at its start. -/
structure Inv (seed : Nat) (config : IngestConfig) (r : IngestRun) : Prop where
  config_eq : r.session.config = config
  conserved : r.accepted = r.committed.flatMap Attempt.numbered ++ r.session.shared.pending
  increasing : r.accepted.Pairwise fun p q => p.1 < q.1
  below : ∀ p ∈ r.accepted, p.1 < r.session.highWaterLine
  representable : ∀ p ∈ r.accepted, p.1 < i64Max
  bytes : r.session.shared.bufferBytes = accountedBytes r.session.shared.buffer
  capped : r.session.acceptedBytes ≤ max seed config.perExecByteCap
  pendingSince : r.session.shared.oldestPendingSince = none ↔ r.session.shared.pending = []
  staged : ∀ a ∈ r.active, r.session.shared.inFlight = a.numbered ∧ a ∈ r.attempts
  tried : ∀ a ∈ r.committed, a ∈ r.attempts
  burned : ∀ a ∈ r.attempts, a.seq < r.session.nextSeq
  fresh : r.attempts.Pairwise fun a b => a.seq < b.seq
  written : ∀ a ∈ r.attempts, a.lines ≠ [] ∧ a.numbered <:+: r.accepted

variable {seed : Nat} {config : IngestConfig} {maxChunks : UInt32} {r : IngestRun}

theorem inv_start (gate : GateOk) (config : IngestConfig) :
    Inv gate.mergedBytes config ⟨.new gate config, none, [], [], []⟩ := by
  have hn : ∀ g : GateOk, ∃ c, IngestSession.new g config =
      { IngestSession.new { g with finalLineCount := none } config with finalLineCount := c } := by
    intro g
    unfold IngestSession.new
    cases g.finalLineCount with
    | none => exact ⟨none, rfl⟩
    | some n => exact ⟨some n.toNat, rfl⟩
  obtain ⟨c, hc⟩ := hn gate
  rw [hc]
  constructor
  · rfl
  · rfl
  · exact List.Pairwise.nil
  · simp
  · simp
  · rfl
  · exact le_max_left _ _
  · simp [IngestSession.new, pending]
  · simp
  · simp
  · simp
  · exact List.Pairwise.nil
  · simp

theorem nextSeq_add_one (h : r.session.chunkAttempts < maxChunks) :
    (r.session.nextSeq + 1).toNat = r.session.nextSeq.toNat + 1 := by
  have hlt := UInt32.lt_iff_toNat_lt.mp h
  rw [IngestSession.chunkAttempts, U32.toNat_saturatingAdd] at hlt
  have := maxChunks.toNat_lt
  rw [UInt32.toNat_add, UInt32.toNat_one]
  omega

namespace Inv

section

variable (h : Inv seed config r)
include h

theorem append (now : Nat) (sends : Nat → TrySend) (hb : r.session.Buffers b stop) :
    Inv seed config { r with
      session := r.session.append now sends b stop
      accepted := r.accepted ++ numberFrom b.firstLineNumber b.lines } where
  __ := h
  conserved := by
    simp only [IngestSession.pending_append]
    rw [h.conserved, append_assoc]
  increasing := by
    refine pairwise_append.mpr ⟨h.increasing, pairwise_numberFrom _ _, ?_⟩
    intro p hp q hq
    have h1 := h.below p hp
    have h2 := (bounds_of_mem_numberFrom hq).1
    have h3 := hb.monotone
    omega
  below := by
    intro p hp
    change p.1 < stop
    have hst := hb.stop_eq
    have hm := hb.monotone
    rcases mem_append.mp hp with hp | hp
    · have := h.below p hp
      omega
    · have := (bounds_of_mem_numberFrom hp).2
      omega
  representable := by
    intro p hp
    rcases mem_append.mp hp with hp | hp
    · exact h.representable p hp
    · have h1 := (bounds_of_mem_numberFrom hp).2
      have h2 := hb.stop_eq
      have h3 := hb.representable
      omega
  bytes := by
    have hb := h.bytes
    simp only [IngestSession.append, accountedBytes_append, accountedBytes_numberFrom]
    split <;> simp [hb]
  capped := by
    have hc := hb.within_cap
    rw [h.config_eq] at hc
    change (r.session.acceptedBytes + (b.lines.map accountedLen).sum) % 2 ^ 64 ≤ _
    refine le_trans ?_ (le_trans hc (le_max_right _ _))
    unfold saturatingAdd u64Max
    omega
  pendingSince := by
    have hne : numberFrom b.firstLineNumber b.lines ≠ [] := numberFrom_ne_nil hb.nonempty
    have hs := h.pendingSince
    rw [IngestSession.pending_append]
    simp only [IngestSession.append, oldestPendingSince_fanOut,
      append_eq_nil_iff, hne, and_false, iff_false]
    split_ifs with hpe
    · simp
    · rw [hs, pending, append_eq_nil_iff]
      exact fun hn => hpe hn.symm
  staged := by
    intro a ha
    have := h.staged a ha
    simp only [IngestSession.append, inFlight_fanOut]
    split <;> exact this
  written := fun a ha =>
    ⟨(h.written a ha).1, (h.written a ha).2.trans (prefix_append _ _).isInfix⟩

theorem congr_session (s : IngestSession) (active : Option Attempt)
    (hc : s.config = r.session.config) (hs : s.shared.pending = r.session.shared.pending)
    (hb : s.shared.bufferBytes = accountedBytes s.shared.buffer)
    (hsi : s.shared.oldestPendingSince = r.session.shared.oldestPendingSince)
    (hh : r.session.highWaterLine ≤ s.highWaterLine)
    (hac : s.acceptedBytes = r.session.acceptedBytes) (hse : s.nextSeq = r.session.nextSeq)
    (ha : ∀ a ∈ active, s.shared.inFlight = a.numbered ∧ a ∈ r.attempts) :
    Inv seed config { r with session := s, active } where
  __ := h
  config_eq := hc.trans h.config_eq
  conserved := by
    rw [h.conserved]
    simp [hs]
  below := fun p hp => (h.below p hp).trans_le hh
  bytes := hb
  capped := hac ▸ h.capped
  pendingSince := by
    simp only [hs, hsi]
    exact h.pendingSince
  staged := ha
  burned := hse ▸ h.burned

theorem accept (now : Nat) (sends : Nat → TrySend)
    (batch : BuildLogBatch) : Inv seed config (r.step maxChunks (.accept now sends batch)) := by
  unfold step
  rcases r.session.accept_cases now sends batch with ⟨e, ha, hl⟩ |
    ⟨hw, o, ha, hle, hl, _⟩ | ⟨b, stop, ha, hb, had⟩
  · simpa [ha] using h
  · simp only [ha, hl, append_nil]
    exact h.congr_session { r.session with highWaterLine := hw } r.active rfl rfl h.bytes rfl hle
      rfl rfl h.staged
  · simp only [ha, had]
    exact h.append now sends hb

theorem beginCut (hro : r.session.chunkAttempts < maxChunks) : Inv seed config { r with
    session := r.session.beginCut.1
    active := r.session.beginCut.2
    attempts := r.attempts ++ r.session.beginCut.2.toList } := by
  have hby := bufferBytes_restoreInFlight _ h.bytes
  cases hc : r.session.beginCut.2 with
  | none =>
    rw [(IngestSession.beginCut_none hc).2, Option.toList_none, append_nil]
    exact h.congr_session _ none rfl (pending_restoreInFlight _) hby
      (oldestPendingSince_restoreInFlight _) le_rfl rfl rfl (by simp)
  | some a =>
    obtain ⟨hs, hse, hne, hr⟩ := IngestSession.beginCut_some hc
    have hp := IngestSession.pending_beginCut r.session
    have hn := nextSeq_add_one hro
    rw [hs] at hr hp ⊢
    exact
      { config_eq := h.config_eq
        conserved := by
          rw [h.conserved]
          simp
        increasing := h.increasing
        below := h.below
        representable := h.representable
        bytes := bufferBytes_stage _ hby
        capped := h.capped
        pendingSince := by
          simp only [hp]
          exact (oldestPendingSince_restoreInFlight _).symm ▸ h.pendingSince
        staged := by
          rintro a' ⟨⟩
          exact ⟨hr, by simp⟩
        tried := fun a' ha' => mem_append_left _ (h.tried a' ha')
        burned := by
          intro a' ha'
          rw [UInt32.lt_iff_toNat_lt]
          simp only [hn]
          rcases mem_append.mp ha' with ha' | ha'
          · have := UInt32.lt_iff_toNat_lt.mp (h.burned a' ha')
            omega
          · rw [mem_singleton.mp ha', hse]
            omega
        fresh := by
          refine pairwise_append.mpr ⟨h.fresh, by simp, fun a' ha' b hb => ?_⟩
          rw [mem_singleton.mp hb, hse]
          exact h.burned a' ha'
        written := by
          intro a' ha'
          rcases mem_append.mp ha' with ha' | ha'
          · exact h.written a' ha'
          · rw [mem_singleton.mp ha']
            refine ⟨hne, ?_⟩
            simp only [h.conserved, ← hp, ← hr]
            exact ⟨_, _, by rw [append_assoc]; rfl⟩ }

theorem cutSucceeded (now : Nat) : Inv seed config (r.step maxChunks (.cutSucceeded now)) := by
  unfold step
  cases hac : r.active with
  | none => exact h
  | some a =>
    obtain ⟨hr, ht⟩ := h.staged a hac
    exact
      { config_eq := h.config_eq
        conserved := by
          rw [h.conserved]
          simp [IngestSession.finishCut, pending, hr]
        increasing := h.increasing
        below := h.below
        representable := h.representable
        bytes := h.bytes
        capped := h.capped
        pendingSince := by
          simp only [IngestSession.finishCut, pending]
          split
          all_goals simp_all
        staged := by simp
        tried := by
          intro a' ha'
          rcases mem_append.mp ha' with ha' | ha'
          · exact h.tried a' ha'
          · exact mem_singleton.mp ha' ▸ ht
        burned := h.burned
        fresh := h.fresh
        written := h.written }

theorem cutFailed : Inv seed config (r.step maxChunks .cutFailed) := by
  unfold step
  cases ha : r.active with
  | none => exact h
  | some a =>
    exact h.congr_session r.session.failCut none rfl (pending_restoreInFlight _)
      (bufferBytes_restoreInFlight _ h.bytes)
      (oldestPendingSince_restoreInFlight _) le_rfl rfl rfl (by simp)

theorem cutAbandoned : Inv seed config (r.step maxChunks .cutAbandoned) := by
  unfold step
  cases ha : r.active with
  | none => exact h
  | some a =>
    exact h.congr_session r.session.noteCutAbandoned none rfl rfl h.bytes rfl le_rfl rfl rfl
      (by simp)

theorem step (e : IngestEvent) : Inv seed config (r.step maxChunks e) := by
  cases e with
  | accept now sends batch => exact h.accept now sends batch
  | finalLineCount n =>
    exact h.congr_session (r.session.setFinalLineCount n) r.active rfl rfl h.bytes rfl le_rfl rfl
      rfl h.staged
  | readers subscribers =>
    exact h.congr_session { r.session with shared := { r.session.shared with subscribers } }
      r.active rfl rfl h.bytes rfl le_rfl rfl rfl h.staged
  | beginCut =>
    rw [IngestRun.step]
    split_ifs with hr
    · exact h.beginCut hr
    · exact h
  | cutSucceeded now => exact h.cutSucceeded now
  | cutFailed => exact h.cutFailed
  | cutAbandoned => exact h.cutAbandoned

theorem nodup_seq : (r.attempts.map Attempt.seq).Nodup := by
  rw [List.Nodup, pairwise_map]
  exact h.fresh.imp fun hlt => UInt32.ne_of_lt hlt

theorem run (events : List IngestEvent) : Inv seed config (r.run maxChunks events) := by
  induction events generalizing r with
  | nil => exact h
  | cons e events ih => exact ih (h.step e)

end

end Inv

end IngestRun

end RioBuild.Log
