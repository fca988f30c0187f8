import Mathlib.Data.Finset.Card
import RioBuild.Lib.Word

universe u

namespace RioBuild.Retry

open Lib

abbrev AbsTime := UInt64

abbrev IdSet (Id : Type u) := Finset Id

structure Budget where
  maxRetries : UInt32 := 2
  maxInfraRetries : UInt32 := 10
  maxTimeoutRetries : UInt32 := 4
  maxExemptInfraRetries : UInt32 := 50
  backoffBaseSecs : UInt64 := 5
  backoffMultiplier : UInt64 := 2
  backoffMaxSecs : UInt64 := 300
  poisonThreshold : UInt32 := 3
  requireDistinctWorkers : Bool := true
  poisonResubmitRetryLimit : UInt32 := 2
  poisonTtlSecs : UInt64 := 24 * 60 * 60
  deriving DecidableEq, Repr

namespace Budget

def backoffLoop (b : Budget) : Nat → UInt64 → UInt64
  | 0, d => min d b.backoffMaxSecs
  | n + 1, d =>
    let d := U64.saturatingMul d b.backoffMultiplier
    if d ≥ b.backoffMaxSecs then b.backoffMaxSecs else b.backoffLoop n d

def backoffSecs (b : Budget) (attempt : UInt32) : UInt64 :=
  b.backoffLoop attempt.toNat b.backoffBaseSecs

theorem backoffLoop_le (b : Budget) (n : Nat) (d : UInt64) :
    b.backoffLoop n d ≤ b.backoffMaxSecs := by
  induction n generalizing d with
  | zero =>
    simp only [backoffLoop, UInt64.min_def]
    split
    · assumption
    · exact Nat.le_refl _
  | succ n ih =>
    simp only [backoffLoop]
    split
    · exact UInt64.le_refl _
    · exact ih _

theorem backoffSecs_le (b : Budget) (attempt : UInt32) : b.backoffSecs attempt ≤ b.backoffMaxSecs :=
  b.backoffLoop_le _ _

theorem toNat_backoffLoop {b : Budget} (h : 1 ≤ b.backoffMultiplier) : (b.backoffLoop n d).toNat =
    min (d.toNat * b.backoffMultiplier.toNat ^ n) b.backoffMaxSecs.toNat := by
  have hm := b.backoffMaxSecs.toNat_lt
  induction n generalizing d with
  | zero =>
    rw [backoffLoop, pow_zero, mul_one, UInt64.min_def]
    split_ifs with hc
    all_goals
      rw [UInt64.le_iff_toNat_le] at hc
      omega
  | succ n ih =>
    simp only [backoffLoop, ge_iff_le, UInt64.le_iff_toNat_le]
    have hs := U64.toNat_saturatingMul d b.backoffMultiplier
    rw [pow_succ', ← mul_assoc]
    split_ifs with hc
    · have hp : 0 < b.backoffMultiplier.toNat ^ n := Nat.pow_pos h
      have := Nat.le_mul_of_pos_right (d.toNat * b.backoffMultiplier.toNat) hp
      omega
    · rw [ih, hs, min_eq_left (by omega : d.toNat * b.backoffMultiplier.toNat ≤ _)]

theorem backoffSecs_curve (b : Budget) (h : 1 ≤ b.backoffMultiplier) :
    (∀ a, (b.backoffSecs a).toNat =
      min (b.backoffBaseSecs.toNat * b.backoffMultiplier.toNat ^ a.toNat) b.backoffMaxSecs.toNat) ∧
    (∀ a a', a ≤ a' → b.backoffSecs a ≤ b.backoffSecs a') ∧
    ∀ a, b.backoffSecs a ≤ b.backoffMaxSecs := by
  refine ⟨fun a => toNat_backoffLoop h, fun a a' ha => ?_, b.backoffSecs_le⟩
  rw [UInt64.le_iff_toNat_le, backoffSecs, backoffSecs, toNat_backoffLoop h, toNat_backoffLoop h]
  exact min_le_min_right _ (Nat.mul_le_mul_left _ (Nat.pow_le_pow_right h ha))

theorem backoffSecs_curve_default :
    Budget.backoffSecs {} 3 = 40 ∧ (∀ a, 3 ≤ a → 40 ≤ Budget.backoffSecs {} a) ∧
      ∀ a, Budget.backoffSecs {} a ≤ 300 := by
  obtain ⟨-, hm, hc⟩ := backoffSecs_curve {} (by decide)
  exact ⟨rfl, hm 3, hc⟩

end Budget

structure FleetView (Id : Type u) where
  eligible : IdSet Id := ∅

/-- One observed accounting event.  The executor is the attempt's exclusion key; an
event without one charges its flat counters only. -/
inductive AttemptEvent (Id : Type u) : Type u
  | transient (time : AbsTime) (executor : Option Id)
  | infra (time : AbsTime) (executor : Option Id) (exempt atCap : Bool)
  | executorVariant (time : AbsTime) (executor : Option Id) (atCap : Bool)
  | permanent (time : AbsTime) (executor : Option Id)
  | workerTimeout (time : AbsTime) (executor : Option Id)
  | disconnect (time : AbsTime) (executor : Option Id)
  | controllerTermination (time : AbsTime) (executor : Option Id) (promoted atCap : Bool)
  | controllerDeadlineExceeded (time : AbsTime) (executor : Option Id)
  | backstopTimeout (time : AbsTime) (executor : Option Id)
  | establishedCrash (time : AbsTime) (executor : Option Id)
  | dispatched (time : AbsTime) (executor : Option Id)
  | resubmitReset (time : AbsTime)
  | cacheHitClear (time : AbsTime)
  | poisonCleared (time : AbsTime)
  deriving DecidableEq

@[ext] structure Counters (Id : Type u) where
  count : UInt32 := 0
  resubmitCycles : UInt32 := 0
  infraCount : UInt32 := 0
  timeoutCount : UInt32 := 0
  lastInfraFailureAt : Option AbsTime := none
  exemptInfraCount : UInt32 := 0
  failedBuilders : IdSet Id := ∅
  failureCount : UInt32 := 0
  poisonedAt : Option AbsTime := none
  backoffUntil : Option AbsTime := none
  deriving DecidableEq

inductive PoisonReason
  | threshold | fleetExhausted | transientBudget | infraBudget | exemptInfraBudget
  | permanent | computeBoundAtCap
  deriving DecidableEq, Repr

inductive Verdict
  | requeue
  | poison (reason : PoisonReason)
  | cancel
  | ttlExpire
  deriving DecidableEq, Repr

section

variable {Id : Type u} [DecidableEq Id]

def exhaustsFleet (failedBuilders : IdSet Id) (fleet : FleetView Id) : Bool :=
  if failedBuilders = ∅ ∨ fleet.eligible = ∅ then false
  else fleet.eligible ⊆ failedBuilders

namespace Counters

def poisonThresholdReached (c : Counters Id) (budget : Budget) : Bool :=
  let n := if budget.requireDistinctWorkers then UInt32.ofNat c.failedBuilders.card
    else c.failureCount
  n ≥ budget.poisonThreshold

def clearForCacheHit (c : Counters Id) : Counters Id := { backoffUntil := c.backoffUntil }

def insertFailed (c : Counters Id) : Option Id → Counters Id
  | some e => { c with failedBuilders := insert e c.failedBuilders }
  | none => c

def recordFailure (c : Counters Id) (executor : Option Id) : Counters Id :=
  let c := c.insertFailed executor
  { c with failureCount := c.failureCount + 1 }

def poison (c : Counters Id) (time : AbsTime) (reason : PoisonReason) : Counters Id × Verdict :=
  ({ c with poisonedAt := some time }, .poison reason)

/-- The per-cycle retry arm shared by transient and executor-variant failures: the
backoff is read from the count before it is incremented. -/
def retryTransient (c : Counters Id) (time : AbsTime) (budget : Budget) :
    Counters Id × Verdict :=
  if c.count < budget.maxRetries then
    let backoff := budget.backoffSecs c.count
    ({ c with
        count := c.count + 1
        backoffUntil := some (U64.saturatingAdd time backoff) }, .requeue)
  else c.poison time .transientBudget

/-- Check, then increment: the cap fires on failure `N + 1`. -/
def chargeInfra (c : Counters Id) (time : AbsTime) (budget : Budget) : Counters Id × Verdict :=
  if c.infraCount ≥ budget.maxInfraRetries then c.poison time .infraBudget
  else
    ({ c with
        infraCount := c.infraCount + 1
        lastInfraFailureAt := some time }, .requeue)

/-- Increment, then check: the cap fires on the `N`th exempt attempt. -/
def chargeExempt (c : Counters Id) (time : AbsTime) (budget : Budget) : Counters Id × Verdict :=
  let c := { c with exemptInfraCount := c.exemptInfraCount + 1 }
  if c.exemptInfraCount ≥ budget.maxExemptInfraRetries then c.poison time .exemptInfraBudget
  else (c, .requeue)

def recheckThreshold (c : Counters Id) (time : AbsTime) (budget : Budget) :
    Counters Id × Verdict :=
  if c.poisonThresholdReached budget then c.poison time .threshold else (c, .requeue)

def apply (c : Counters Id) (ev : AttemptEvent Id) (budget : Budget) (fleet : FleetView Id) :
    Counters Id × Verdict :=
  match ev with
  | .transient time executor =>
    let c := { c with infraCount := 0 }.recordFailure executor
    if c.poisonThresholdReached budget then c.poison time .threshold
    else if exhaustsFleet c.failedBuilders fleet then c.poison time .fleetExhausted
    else c.retryTransient time budget
  | .infra time _ exempt _ =>
    if exempt then c.chargeExempt time budget else c.chargeInfra time budget
  | .executorVariant time executor atCap =>
    let c := { c with infraCount := 0 }.recordFailure executor
    if atCap then c.poison time .computeBoundAtCap
    else if c.poisonThresholdReached budget then c.poison time .permanent
    else c.retryTransient time budget
  | .permanent time executor =>
    let c := { c with poisonedAt := some time }
    (c.insertFailed executor, .poison .permanent)
  | .workerTimeout _ _ =>
    let c := { c with infraCount := 0 }
    if c.timeoutCount < budget.maxTimeoutRetries then
      ({ c with timeoutCount := c.timeoutCount + 1 }, .requeue)
    else (c, .cancel)
  | .disconnect time _ => c.recheckThreshold time budget
  | .controllerTermination time _ promoted atCap =>
    if atCap then c.chargeInfra time budget
    else if promoted then c.chargeExempt time budget
    else (c, .requeue)
  | .controllerDeadlineExceeded _ _ =>
    let c := { c with infraCount := 0 }
    if c.timeoutCount ≥ budget.maxTimeoutRetries then (c, .cancel)
    else ({ c with timeoutCount := c.timeoutCount + 1 }, .requeue)
  | .backstopTimeout time executor => (c.recordFailure executor).recheckThreshold time budget
  | .establishedCrash time executor => (c.recordFailure executor).recheckThreshold time budget
  | .dispatched _ _ => ({ c with backoffUntil := none }, .requeue)
  | .resubmitReset _ => ({ resubmitCycles := c.resubmitCycles + 1 }, .requeue)
  | .cacheHitClear _ => (c.clearForCacheHit, .requeue)
  | .poisonCleared _ => ({}, .requeue)

theorem apply_timeout (c : Counters Id) (time time' : AbsTime) (e e' : Option Id) :
    c.apply (.workerTimeout time e) budget fleet =
      c.apply (.controllerDeadlineExceeded time' e') budget fleet := by
  simp only [apply]
  split <;> split <;> grind

theorem apply_exempt (c : Counters Id) (time : AbsTime) (e e' : Option Id) :
    c.apply (.infra time e true atCap) budget fleet =
      c.apply (.controllerTermination time e' true false) budget fleet := by
  simp [apply]

end Counters

def ttlDowngrade (c : Counters Id) (verdict : Verdict) (now : AbsTime) (budget : Budget) :
    Verdict :=
  match verdict, c.poisonedAt with
  | .poison _, some p =>
    if U64.saturatingSub now p > budget.poisonTtlSecs then .ttlExpire else verdict
  | _, _ => verdict

def foldEvents (initial : Counters Id) (history : List (AttemptEvent Id)) (now : AbsTime)
    (budget : Budget) (fleet : FleetView Id) : Counters Id × Verdict :=
  let s := history.foldl (fun s ev => s.1.apply ev budget fleet) (initial, .requeue)
  (s.1, ttlDowngrade s.1 s.2 now budget)

end

end RioBuild.Retry
