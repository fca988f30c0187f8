import Mathlib.Data.Nat.Digits.Defs
import RioBuild.Log.Kernel

/-! The builder's log batcher.  Lines, line numbers and bytes are counted in naturals, except where
a count is printed; times are in nanoseconds. -/

namespace RioBuild.Log.Batch

open List

def maxBatchLines : Nat := 64
def batchTimeout : Nat := 100 * 10 ^ 6
def rateWindow : Nat := 10 ^ 9

structure LogLimits where
  (rateLinesPerSec totalBytes : UInt64)

structure BuildLogBatch where
  derivationPath : String
  lines : List (List UInt8)
  firstLineNumber : Nat
  executorId : String

inductive AddLineResult
  | buffered
  | batchReady (batch : BuildLogBatch)
  | limitExceeded (reason : String)

structure LogBatcher where
  (drvPath executorId : String)
  lines : List (List UInt8) := []
  (nextLineNumber batchStart : Nat)
  limits : LogLimits
  linesThisWindow : Nat := 0
  linesDroppedThisWindow : UInt64 := 0
  windowStart : Nat
  totalBytes : Nat := 0

def suppressed (dropped rate : UInt64) : List UInt8 :=
  ("[rio: " ++ toString dropped ++ " lines suppressed by log_rate_limit (" ++ toString rate ++
    " lines/s)]").toList.map (·.toNat.toUInt8)

namespace LogBatcher

def new (drvPath executorId : String) (limits : LogLimits) (initialLine now : Nat) : LogBatcher :=
  { drvPath, executorId, limits, nextLineNumber := initialLine, batchStart := now,
    windowStart := now }

def drain (b : LogBatcher) : LogBatcher :=
  if 0 < b.linesDroppedThisWindow then
    let marker := suppressed b.linesDroppedThisWindow b.limits.rateLinesPerSec
    { b with
      linesDroppedThisWindow := 0
      totalBytes := b.totalBytes + marker.length
      lines := b.lines ++ [marker] }
  else b

def flush (b : LogBatcher) : LogBatcher × BuildLogBatch :=
  ({ b with nextLineNumber := b.nextLineNumber + b.lines.length, lines := [] },
    ⟨b.drvPath, b.lines, b.nextLineNumber, b.executorId⟩)

def resets (b : LogBatcher) (now : Nat) : Bool :=
  0 < b.limits.rateLinesPerSec && rateWindow ≤ now - b.windowStart

def rewindow (b : LogBatcher) (now reset : Nat) : LogBatcher :=
  if b.resets now then { b.drain with windowStart := reset, linesThisWindow := 0 } else b

def throttle (b : LogBatcher) (now reset : Nat) : LogBatcher × Bool :=
  if 0 < b.limits.rateLinesPerSec then
    let b := b.rewindow now reset
    if b.limits.rateLinesPerSec.toNat ≤ b.linesThisWindow then
      ({ b with linesDroppedThisWindow := b.linesDroppedThisWindow + 1 }, false)
    else ({ b with linesThisWindow := b.linesThisWindow + 1 }, true)
  else (b, true)

def prospective (b : LogBatcher) (line : List UInt8) : Nat :=
  min (b.totalBytes + line.length) (2 ^ 64 - 1)

def exceeds (b : LogBatcher) (line : List UInt8) : Bool :=
  0 < b.limits.totalBytes && b.limits.totalBytes.toNat < b.prospective line

def push (b : LogBatcher) (line : List UInt8) (start : Nat) : LogBatcher :=
  { b with
    batchStart := if b.lines.isEmpty then start else b.batchStart
    totalBytes := b.totalBytes + line.length
    lines := b.lines ++ [line] }

def accept (b : LogBatcher) (line : List UInt8) (start : Nat) : LogBatcher × AddLineResult :=
  if b.exceeds line then
    (b, .limitExceeded ("log_size_limit exceeded: " ++ toString (b.prospective line) ++
      " bytes > " ++ toString b.limits.totalBytes ++ " limit (" ++ toString b.nextLineNumber ++
      " lines so far)"))
  else
    let b := b.push line start
    if maxBatchLines ≤ b.lines.length then (b.flush.1, .batchReady b.flush.2) else (b, .buffered)

/-- `now`, `reset` and `start` are what its reads of the clock give. -/
def addLine (b : LogBatcher) (line : List UInt8) (now reset start : Nat) :
    LogBatcher × AddLineResult :=
  match b.throttle now reset with
  | (b, true) => b.accept (line.take maxLineContentBytes) start
  | (b, false) => (b, .buffered)

def maybeFlush (b : LogBatcher) (now : Nat) : LogBatcher × Option BuildLogBatch :=
  if !b.lines.isEmpty && batchTimeout ≤ now - b.batchStart then (b.flush.1, some b.flush.2)
  else (b, none)

def finalFlush (b : LogBatcher) : LogBatcher × BuildLogBatch := b.drain.flush

end LogBatcher

inductive Call
  | addLine (line : List UInt8) (now reset start : Nat)
  | maybeFlush (now : Nat)
  | flush
  | finalFlush

variable {b : LogBatcher}

namespace LogBatcher

def step (b : LogBatcher) : Call → LogBatcher × List BuildLogBatch
  | .addLine line now reset start =>
    match b.addLine line now reset start with
    | (b, .batchReady batch) => (b, [batch])
    | (b, _) => (b, [])
  | .maybeFlush now => ((b.maybeFlush now).1, (b.maybeFlush now).2.toList)
  | .flush => (b.flush.1, [b.flush.2])
  | .finalFlush => (b.finalFlush.1, [b.finalFlush.2])

def gather (f : LogBatcher → Call → List α) : LogBatcher → List Call → List α
  | _, [] => []
  | b, c :: calls => f b c ++ gather f (b.step c).1 calls

def batches : LogBatcher → List Call → List BuildLogBatch := gather fun b c => (b.step c).2

def always (p : LogBatcher → Call → Bool) (b : LogBatcher) (calls : List Call) : Bool :=
  (gather (fun b c => [p b c]) b calls).all id

def markerFits (b : LogBatcher) : Call → Bool
  | .addLine _ now _ _ =>
    !(b.resets now && 0 < b.linesDroppedThisWindow) || b.lines.length + 2 ≤ maxBatchLines
  | _ => true

end LogBatcher

open LogBatcher

theorem always_cons : b.always p (c :: calls) ↔ p b c ∧ (b.step c).1.always p calls := by
  simp [always, gather]

theorem length_suppressed : (suppressed dropped rate).length ≤ maxLineContentBytes := by
  have hl : ∀ n : UInt64, (toString n).toList.length ≤ 20 := by
    intro n
    change (String.ofList (Nat.toDigits 10 n.toNat)).toList.length ≤ 20
    rw [String.toList_ofList]
    exact Nat.toDigits_length 10 n.toNat 20 (by decide) (n.toNat_lt.trans (by decide))
  have hd := hl dropped
  have hr := hl rate
  simp [suppressed, maxLineContentBytes]
  omega

def Within (k : Nat) (ls : List (List UInt8)) : Prop :=
  ls.length ≤ k ∧ ∀ line ∈ ls, line.length ≤ maxLineContentBytes

theorem Within.push {line : List UInt8} (h : Within k ls) (hl : line.length ≤ maxLineContentBytes)
    (hk : ls.length < n) : Within n (ls ++ [line]) :=
  ⟨by simpa [Nat.succ_le_iff] using hk, by simpa [or_imp, forall_and] using ⟨h.2, hl⟩⟩

theorem drain_within (h : Within k b.lines)
    (hd : 0 < b.linesDroppedThisWindow → b.lines.length < n) (hk : k ≤ n) :
    Within n b.drain.lines := by
  unfold drain
  split_ifs with hp
  · exact h.push length_suppressed (hd hp)
  · exact ⟨h.1.trans hk, h.2⟩

theorem throttle_within (h : Within 63 b.lines)
    (hf : b.markerFits (.addLine line now reset start)) :
    Within 63 (b.throttle now reset).1.lines := by
  have hw : Within 63 (b.rewindow now reset).lines := by
    unfold rewindow
    split_ifs with hs
    · refine drain_within h (fun hd => ?_) le_rfl
      simpa [markerFits, hs, hd, maxBatchLines, Nat.lt_succ_iff] using hf
    · exact h
  unfold throttle
  split
  · dsimp only
    split
    all_goals exact hw
  · exact h

theorem step_within (h : Within 63 b.lines) (c : Call) (hf : b.markerFits c) :
    Within 63 (b.step c).1.lines ∧ ∀ batch ∈ (b.step c).2, Within maxBatchLines batch.lines := by
  have hw : Within maxBatchLines b.lines := ⟨h.1.trans (by decide), h.2⟩
  have he : Within 63 [] := ⟨Nat.zero_le _, by simp⟩
  cases c with
  | addLine line now reset start =>
    have ha := throttle_within h hf
    rw [step, addLine]
    generalize b.throttle now reset = x at ha ⊢
    obtain ⟨b', _ | _⟩ := x
    · exact ⟨ha, by simp⟩
    · have hp : Within maxBatchLines (b'.push (line.take maxLineContentBytes) start).lines :=
        Within.push ha (length_take_le _ _) (Nat.lt_succ_of_le ha.1)
      dsimp only [accept]
      split_ifs with hx hl
      · exact ⟨ha, by simp⟩
      · exact ⟨he, by simpa [flush] using hp⟩
      · exact ⟨⟨Nat.le_of_lt_succ (Nat.lt_of_not_le hl), hp.2⟩, by simp⟩
  | maybeFlush now =>
    simp only [step, maybeFlush]
    split_ifs
    · exact ⟨he, by simpa [flush] using hw⟩
    · exact ⟨h, by simp⟩
  | flush => exact ⟨he, by simpa [step, flush] using hw⟩
  | finalFlush =>
    have hd : Within maxBatchLines b.drain.lines :=
      drain_within h (fun _ => Nat.lt_succ_of_le h.1) (by decide)
    exact ⟨he, by simpa [step, finalFlush, flush] using hd⟩

/-- The bound of a batch, for every run in which each marker that a line brings leaves room for
that line. -/
theorem batches_within (drvPath executorId : String) (limits : LogLimits) (initialLine now : Nat)
    (calls : List Call)
    (hf : (LogBatcher.new drvPath executorId limits initialLine now).always markerFits calls) :
    ∀ batch ∈ (LogBatcher.new drvPath executorId limits initialLine now).batches calls,
      batch.lines.length ≤ maxBatchLines ∧
        ∀ line ∈ batch.lines, line.length ≤ maxLineContentBytes := by
  have hw : Within 63 (new drvPath executorId limits initialLine now).lines :=
    ⟨Nat.zero_le _, by simp [new]⟩
  generalize new drvPath executorId limits initialLine now = b at hf hw ⊢
  induction calls generalizing b with
  | nil => simp [batches, gather]
  | cons c calls ih =>
    obtain ⟨hc, hf⟩ := (always_cons).mp hf
    obtain ⟨hs, hb⟩ := step_within hw c hc
    exact forall_mem_append.mpr ⟨hb, ih _ hf hs⟩

def sparse : List Call :=
  [.addLine [97] 0 0 0, .addLine [98] 1 1 1, .addLine [99] rateWindow rateWindow rateWindow,
    .finalFlush]

theorem batches_within_sparse : let b := LogBatcher.new "drv" "builder" ⟨1, 0⟩ 0 0
    b.always markerFits sparse ∧ ∀ batch ∈ b.batches sparse, batch.lines.length ≤ maxBatchLines ∧
        ∀ line ∈ batch.lines, line.length ≤ maxLineContentBytes :=
  ⟨by decide +kernel, batches_within "drv" "builder" ⟨1, 0⟩ 0 0 sparse (by decide +kernel)⟩

/-- Sixty-three lines are buffered and one is dropped when the next window brings the marker and
one more line: the batch has sixty-five. -/
theorem batch_of_sixtyFive : let early := 950 * 10 ^ 6
    ((LogBatcher.new "drv" "builder" ⟨63, 0⟩ 0 0).batches
      (replicate 64 (.addLine [97] early early early) ++
        [.addLine [98] rateWindow rateWindow rateWindow])).map (·.lines.length) = [65] := by
  decide +kernel

end RioBuild.Log.Batch
