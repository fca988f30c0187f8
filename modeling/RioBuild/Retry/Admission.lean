import RioBuild.Lib.Suffix
import RioBuild.Retry.Ledger

universe u

namespace RioBuild.Retry

open Lib

inductive WorkerAbortAdmission
  | uncharged | chargedFallthrough
  deriving DecidableEq, Repr

variable {Id : Type u}

def scanRun (cls : OutcomeClass) : List (LedgerRow Id) → UInt32 → UInt32
  | [], count => count
  | r :: rows, count =>
    match runStep r cls with
    | .laneSkip => scanRun cls rows count
    | .breakRun => count
    | .pace => scanRun cls rows (count + 1)
    | .extend => scanRun cls rows count

def trailingUnchargedClassCount (rows : List (LedgerRow Id)) (cls : OutcomeClass) : UInt32 :=
  scanRun cls rows.reverse 0

def admitBoundedUncharged (rows : List (LedgerRow Id)) (cls : OutcomeClass) (bound : UInt32) :
    WorkerAbortAdmission :=
  if trailingUnchargedClassCount rows cls ≥ bound then .chargedFallthrough else .uncharged

def admitWorkerAbort (rows : List (LedgerRow Id)) (bound : UInt32) : WorkerAbortAdmission :=
  admitBoundedUncharged rows .disconnected bound

def admitStoreDegraded (rows : List (LedgerRow Id)) (bound : UInt32) : WorkerAbortAdmission :=
  admitBoundedUncharged rows .storeDegraded bound

def breaksRun (r : LedgerRow Id) : Bool := r.inLane .build && !isBoundedUnchargedRow r

def isUncharged (cls : OutcomeClass) (r : LedgerRow Id) : Bool :=
  isBoundedUnchargedRow r && r.outcomeClass = cls

def trailingRun (rows : List (LedgerRow Id)) : List (LedgerRow Id) := afterLast breaksRun rows

theorem isUncharged_of_fields (hk : r.kind = .build)
    (he : r.eventKind = .attempt) (hp : r.reportingParty = .worker)
    (hc : r.outcomeClass = cls) (hr : boundedUncharged.any (fun e => e.1 = cls) = true) :
    isUncharged cls r = true := by
  simp only [isUncharged, isBoundedUnchargedRow, hk, he, hp, hc, hr]
  rfl

theorem isReset_of_isUncharged (h : isUncharged cls r = true) : r.isReset = false := by
  simp only [isUncharged, isBoundedUnchargedRow, Bool.and_eq_true, decide_eq_true_eq] at h
  simp [LedgerRow.isReset, h.1.1.1.2]

theorem runStep_eq : runStep r cls = if breaksRun r then .breakRun
    else if isUncharged cls r then .pace
    else if r.inLane .build then .extend else .laneSkip := by
  by_cases hk : r.kind = .build
  · rw [runStep_of_kind hk]
    cases hb : isBoundedUnchargedRow r <;> simp [breaksRun, isUncharged, LedgerRow.inLane, hk, hb]
  · have hb : isBoundedUnchargedRow r = false := by simp [isBoundedUnchargedRow, hk]
    rw [runStep_of_kind_ne hk]
    simp [breaksRun, isUncharged, LedgerRow.inLane, hk, hb]

theorem scanRun_add_one (cls : OutcomeClass) (rows : List (LedgerRow Id)) (n : UInt32) :
    scanRun cls rows (n + 1) = scanRun cls rows n + 1 := by
  induction rows generalizing n with
  | nil => rfl
  | cons r rows ih =>
    simp only [scanRun]
    cases runStep r cls with
    | laneSkip => exact ih n
    | pace => exact ih (n + 1)
    | extend => exact ih n
    | breakRun => rfl

theorem trailingUnchargedClassCount_concat :
    trailingUnchargedClassCount (rows ++ [r]) cls = if breaksRun r then 0
      else if isUncharged cls r then trailingUnchargedClassCount rows cls + 1
      else trailingUnchargedClassCount rows cls := by
  simp only [trailingUnchargedClassCount, List.reverse_concat, scanRun, runStep_eq]
  cases breaksRun r with
  | true => rfl
  | false =>
    cases isUncharged cls r with
    | true => exact scanRun_add_one cls rows.reverse 0
    | false => cases r.inLane .build <;> rfl

theorem trailingUnchargedClassCount_eq : trailingUnchargedClassCount rows cls =
    UInt32.ofNat ((trailingRun rows).countP (isUncharged cls)) := by
  rw [trailingRun, ← foldl_tally]
  induction rows using List.reverseRecOn with
  | nil => rfl
  | append_singleton rows r ih =>
    rw [trailingUnchargedClassCount_concat, afterLast_concat, ih]
    cases breaksRun r with
    | true => rfl
    | false => simp

theorem countP_trailingRun_replicate (hr : isUncharged cls r = true) (n : Nat) :
    (trailingRun (List.replicate n r)).countP (isUncharged cls) = n := by
  have hb : breaksRun r = false := by
    rw [isUncharged, Bool.and_eq_true] at hr
    simp [breaksRun, hr.1]
  rw [trailingRun, afterLast_eq_self, List.countP_replicate, hr]
  · rfl
  · intro x hx
    rw [List.eq_of_mem_replicate hx]
    exact hb

end RioBuild.Retry
