import RioBuild.Lib.Word

/-! The decision kernels of the log subsystem.  Line numbers are 64-bit words, written
as naturals. -/

namespace RioBuild.Log

open Lib Lib.Word

inductive ChunkVisit
  | skip (nextLine : Nat)
  | serve (yieldFrom yieldUntil nextLine : Nat)
  | gapThenServe (gapFrom gapUntil yieldFrom yieldUntil nextLine : Nat)
  deriving DecidableEq, Repr

structure CursorAdvance where
  target : Nat
  gapCrossed : Bool
  deriving DecidableEq, Repr

namespace ChunkVisit

def isEmpty : ChunkVisit → Bool
  | .skip _ => true
  | _ => false

def nextLine : ChunkVisit → Nat
  | .skip n => n
  | .serve _ _ n => n
  | .gapThenServe _ _ _ _ n => n

def advance (v : ChunkVisit) : CursorAdvance where
  target := v.nextLine
  gapCrossed := match v with
    | .gapThenServe .. => true
    | _ => false

def yielded : ChunkVisit → Option (Nat × Nat)
  | .skip _ => none
  | .serve a b _ => some (a, b)
  | .gapThenServe _ _ a b _ => some (a, b)

def gap : ChunkVisit → Option (Nat × Nat)
  | .gapThenServe a b _ _ _ => some (a, b)
  | _ => none

end ChunkVisit

def visitChunk (nextLine firstLine nLines : Nat) : ChunkVisit :=
  let stop := saturatingAdd firstLine nLines
  let lastLine := stop - 1
  if nLines = 0 ∨ lastLine < nextLine then .skip nextLine
  else if nextLine < firstLine then .gapThenServe nextLine firstLine firstLine stop stop
  else .serve nextLine stop stop

theorem visitChunk_cases (w f n : Nat) :
    (visitChunk w f n = .skip w ∧ (n = 0 ∨ saturatingAdd f n ≤ w)) ∨
      (visitChunk w f n = .serve w (saturatingAdd f n) (saturatingAdd f n) ∧
        f ≤ w ∧ w < saturatingAdd f n) ∨
      (visitChunk w f n = .gapThenServe w f f (saturatingAdd f n) (saturatingAdd f n) ∧
        w < f ∧ w < saturatingAdd f n) := by
  unfold visitChunk
  by_cases hs : n = 0 ∨ saturatingAdd f n - 1 < w
  · left
    refine ⟨if_pos hs, hs.imp_right fun h => ?_⟩
    omega
  · have hp : 0 < saturatingAdd f n := Nat.lt_min.mpr ⟨by omega, by decide⟩
    by_cases hg : w < f
    · exact .inr (.inr ⟨by simp [if_neg hs, if_pos hg], hg, by omega⟩)
    · exact .inr (.inl ⟨by simp [if_neg hs, if_neg hg], by omega, by omega⟩)

inductive ObjectDivergence
  | shortObject (missingFrom missingUntil : Nat)
  | longObject (excess : Nat)
  deriving DecidableEq, Repr

structure ObjectVisit where
  visit : ChunkVisit
  divergence : Option ObjectDivergence
  deriving DecidableEq, Repr

def visitObject (nextLine firstLine manifestCount objectCount : Nat) : ObjectVisit where
  visit := visitChunk nextLine firstLine (min manifestCount objectCount)
  divergence :=
    if objectCount < manifestCount then
      some (.shortObject (saturatingAdd firstLine objectCount)
        (saturatingAdd firstLine manifestCount))
    else if manifestCount < objectCount then some (.longObject (objectCount - manifestCount))
    else none

inductive ShortObjectPolicy
  | serveClamped | unservableHole
  deriving DecidableEq, Repr

def coverFrom (missingUntil : Nat) : Nat → List (Nat × Nat) → Nat
  | coveredTo, [] => coveredTo
  | coveredTo, (first, count) :: rows =>
    if missingUntil ≤ coveredTo then coveredTo
    else if coveredTo < first then coveredTo
    else coverFrom missingUntil (max coveredTo (saturatingAdd first count)) rows

def shortObjectPolicy (cursorNextLine missingFrom missingUntil : Nat)
    (remaining : List (Nat × Nat)) : ShortObjectPolicy :=
  let neededFrom := max missingFrom cursorNextLine
  if missingUntil ≤ neededFrom then .serveClamped
  else if missingUntil ≤ coverFrom missingUntil neededFrom remaining then .serveClamped
  else .unservableHole

inductive GapProvenance
  | admittedHole
  | droppedSpan (droppedUntil : Nat)
  deriving DecidableEq, Repr

structure FanoutVisit where
  visit : ChunkVisit
  provenance : Option GapProvenance
  deriving DecidableEq, Repr

def visitFanoutBatch (nextLine firstLine nLines coverageFloor : Nat) : FanoutVisit where
  visit := visitChunk nextLine firstLine nLines
  provenance := match visitChunk nextLine firstLine nLines with
    | .skip _ | .serve .. => none
    | .gapThenServe gapFrom gapUntil _ _ _ =>
      some (if gapFrom < coverageFloor then .droppedSpan (min coverageFloor gapUntil)
        else .admittedHole)

structure FinalClaim where
  complete : Bool
  cursorNext : Nat
  gapCrossed : Bool
  deriving DecidableEq, Repr

def finalClaim (cursorNext : Nat) (sealedFinalLineCount : Option Nat) (manifestCoversSealed : Bool)
    (gapCrossed : Bool) : FinalClaim where
  complete := (match sealedFinalLineCount with
    | some n => decide (n ≤ cursorNext) && manifestCoversSealed
    | none => false) && !gapCrossed
  cursorNext := cursorNext
  gapCrossed := gapCrossed

/-- The columns are `BIGINT`. -/
def saturatingAddI64 (a b : Int) : Int := max (-2 ^ 63) (min (a + b) (2 ^ 63 - 1))

def manifestCoversFrom (upTo : Int) : Int → List (Int × Int) → Bool
  | covered, [] => decide (upTo ≤ covered)
  | covered, (firstLine, lineCount) :: chunks =>
    if covered < firstLine then false
    else
      let covered := max covered (saturatingAddI64 firstLine lineCount)
      if upTo ≤ covered then true else manifestCoversFrom upTo covered chunks

def manifestCoversContiguously (chunks : List (Int × Int)) (upTo : Int) : Bool :=
  manifestCoversFrom upTo 0 chunks

def lineLenPrefixBytes : Nat := 4

def maxChunkPayloadBytes : Nat := 16 * 1024 * 1024

def perLineOverheadBytes : Nat := 32

def chargedLineCost (contentLen : Nat) : Nat := saturatingAdd contentLen perLineOverheadBytes

def maxChunkLines : Nat := maxChunkPayloadBytes / (perLineOverheadBytes + lineLenPrefixBytes)

def maxChunkLinesAbs : Nat := maxChunkPayloadBytes / lineLenPrefixBytes

def maxLineContentBytes : Nat := 64 * 1024

def maxBatchLines : Nat := maxChunkLines

inductive AcceptVerdict
  | rejectedOverflow | rejectedNonMonotone | rejectedPastFinal | rejectedOversizedBatch
  | accepted (stop : Nat)
  deriving DecidableEq, Repr

def acceptVerdict (highWaterLine : Nat) (finalLineCount : Option Nat)
    (firstLineNumber lineCount : Nat) : AcceptVerdict :=
  match checkedAdd firstLineNumber lineCount with
  | none => .rejectedOverflow
  | some stop =>
    if i64Max < stop then .rejectedOverflow
    else if maxBatchLines < lineCount then .rejectedOversizedBatch
    else if firstLineNumber < highWaterLine then .rejectedNonMonotone
    else match finalLineCount with
      | some ceiling =>
        if ceiling ≤ firstLineNumber then .rejectedPastFinal else .accepted (min stop ceiling)
      | none => .accepted stop

theorem acceptVerdict_eq_accepted (h : acceptVerdict hw final first count = .accepted stop) :
    hw ≤ first ∧ count ≤ maxBatchLines ∧ stop ≤ first + count ∧ stop ≤ i64Max ∧
      (∀ c ∈ final, first < c ∧ stop ≤ c) ∧ (0 < count → first < stop) := by
  unfold acceptVerdict at h
  split at h
  · cases h
  · rename_i e he
    obtain ⟨rfl, -⟩ := checkedAdd_eq_some.mp he
    split_ifs at h with ho hs hm
    split at h
    · split_ifs at h with hc
      injection h with h
      refine ⟨by omega, by omega, by omega, by omega, ?_, by omega⟩
      rintro c' ⟨⟩
      omega
    · injection h with h
      exact ⟨by omega, by omega, by omega, by omega, by simp, by omega⟩

def contiguousPrefixFrom : Nat → List Nat → Nat
  | _, [] => 0
  | prev, n :: lineNumbers =>
    if checkedAdd prev 1 ≠ some n then 0 else contiguousPrefixFrom n lineNumbers + 1

def contiguousPrefixLen : List Nat → Nat
  | [] => 0
  | n :: lineNumbers => contiguousPrefixFrom n lineNumbers + 1

def boundedPrefixFrom (maxPayload : Nat) : Nat → Nat → List (Nat × Nat) → Nat
  | _, _, [] => 0
  | prev, framed, (n, contentLen) :: lines =>
    if checkedAdd prev 1 ≠ some n then 0
    else
      let nextFramed := saturatingAdd framed
        (saturatingAdd (chargedLineCost contentLen) lineLenPrefixBytes)
      if maxPayload < nextFramed then 0 else boundedPrefixFrom maxPayload n nextFramed lines + 1

/-- The longest contiguous prefix whose charged payload stays within the bound; at least
one line of a non-empty input. -/
def boundedContiguousPrefixLen (maxPayload : Nat) : List (Nat × Nat) → Nat
  | [] => 0
  | (n, contentLen) :: lines =>
    boundedPrefixFrom maxPayload n
      (saturatingAdd (chargedLineCost contentLen) lineLenPrefixBytes) lines + 1

inductive TailStopCause
  | naturalEnd | transportErr | openFailed | gapObserved | orphaned | permanentErr
  deriving DecidableEq, Repr

inductive TailNext
  | reopen
  | exit (discloseTruncation : Bool)
  deriving DecidableEq, Repr

def tailNext (cause : TailStopCause) (terminal graceExpired servedComplete consumerAlive : Bool) :
    TailNext :=
  let verdict := TailNext.exit (!servedComplete && consumerAlive)
  if graceExpired then verdict
  else match cause with
    | .orphaned | .permanentErr => verdict
    | .naturalEnd => if terminal && servedComplete then verdict else .reopen
    | .transportErr | .openFailed | .gapObserved => .reopen

end RioBuild.Log
