import RioBuild.Lib.LaneLog
import RioBuild.Retry.Lanes

universe u

namespace RioBuild.Retry

open Lib LedgerRow LaneLog

variable {Id : Type u}

def sweepHorizonSecs (budget : Budget) (retentionFloorSecs : UInt64) : UInt64 :=
  max retentionFloorSecs budget.poisonTtlSecs

def ledgerSuffixStart (rows : List (LedgerRow Id)) (lane : AttemptKind) : Nat :=
  (rposition (fun r => r.inLane lane && r.isReset) rows).getD 0

def rowSurvivesLoad (rows : List (LedgerRow Id)) (index : Fin rows.length) : Bool :=
  index.val ≥ ledgerSuffixStart rows (rows.get index).kind

def sweepEligible (rows : List (LedgerRow Id)) (index : Fin rows.length) (now : AbsTime)
    (horizonSecs : UInt64) : Bool :=
  (rows.get index).eventKind = .attempt &&
    index.val < ledgerSuffixStart rows (rows.get index).kind &&
    U64.saturatingSub now (rows.get index).time > horizonSecs

def loadedView (rows : List (LedgerRow Id)) : List (LedgerRow Id) :=
  select rows (rowSurvivesLoad rows)

def deleteRows (rows : List (LedgerRow Id)) (deleted : Fin rows.length → Bool) :
    List (LedgerRow Id) :=
  select rows (fun i => !deleted i)

def Sweepable (rows : List (LedgerRow Id)) (index : Fin rows.length) : Prop :=
  (rows.get index).eventKind = .attempt ∧
    ∃ j : Fin rows.length, index < j ∧ (rows.get j).kind = (rows.get index).kind ∧
      (rows.get j).eventKind = .reset

inductive RetentionRun : List (LedgerRow Id) → List (LedgerRow Id) → Prop
  | start (rows) : RetentionRun rows rows
  | append {rows rows'} (r) : RetentionRun rows rows' → RetentionRun (rows ++ [r]) (rows' ++ [r])
  | sweep {rows rows'} (deleted : Fin rows'.length → Bool) : RetentionRun rows rows' →
      (∀ i, deleted i = true → Sweepable rows' i) → RetentionRun rows (deleteRows rows' deleted)

theorem rowSurvivesLoad_eq (rows : List (LedgerRow Id)) (index : Fin rows.length) :
    rowSurvivesLoad rows index = !hasCut kind isReset (rows.get index).kind
        (rows.drop (index.val + 1)) := by
  have h := rposition_getD_le_iff
    (fun r => r.inLane (rows.get index).kind && r.isReset) rows index.val
  rw [Bool.eq_iff_iff]
  simpa [rowSurvivesLoad, ledgerSuffixStart, hasCut, inLane] using h

theorem loadedView_eq_view : loadedView rows = view kind isReset rows := by
  rw [loadedView, view_eq_select]
  congr 1
  funext i
  exact rowSurvivesLoad_eq rows i

theorem sweepable_iff :
    Sweepable rows i ↔ (rows.get i).eventKind = .attempt ∧ hasCut kind isReset (rows.get i).kind
        (rows.drop (i.val + 1)) = true := by
  simp [hasCut_drop_iff, Sweepable, isReset]

theorem sweepable_of_sweepEligible
    (h : sweepEligible rows i now horizonSecs = true) : Sweepable rows i := by
  have hd : rowSurvivesLoad rows i = false := by
    simp_all [sweepEligible, rowSurvivesLoad]
  rw [rowSurvivesLoad_eq] at hd
  rw [sweepable_iff]
  refine ⟨?_, by simpa using hd⟩
  simp_all [sweepEligible]

variable {rows : List (LedgerRow Id)} {deleted : Fin rows.length → Bool}

theorem sweep_deleteRows (h : ∀ i, deleted i = true → Sweepable rows i) :
    Sweep kind isReset rows (deleteRows rows deleted) := by
  apply sweep_select
  intro i hi
  obtain ⟨ha, hd⟩ := sweepable_iff.mp (h i hi)
  refine ⟨?_, hd⟩
  rw [isReset, ha]
  rfl

theorem RetentionRun.sweepRun (h : RetentionRun rows rows') : SweepRun kind isReset rows rows' := by
  induction h with
  | start rows => exact .start rows
  | append r _ ih => exact .append r ih
  | sweep deleted _ hd ih => exact .sweep ih (sweep_deleteRows hd)

theorem RetentionRun.loadedView_eq (h : RetentionRun rows rows') :
    loadedView rows' = loadedView rows := by
  rw [loadedView_eq_view, loadedView_eq_view, h.sweepRun.view_eq]

theorem RetentionRun.of_sweep
    (h : ∀ i, deleted i = true → Sweepable rows i) : RetentionRun rows (deleteRows rows deleted) :=
  .sweep deleted (.start rows) h

variable [DecidableEq Id]

theorem retention_preserves_decisions (rows : List (LedgerRow Id)) :
    (∀ deleted : Fin rows.length → Bool, (∀ i, deleted i = true → Sweepable rows i) →
      loadedView (deleteRows rows deleted) = loadedView rows ∧
      (∀ budget now, decide (loadedView (deleteRows rows deleted)) budget now =
        decide (loadedView rows) budget now) ∧
      materializationCounters (loadedView (deleteRows rows deleted)) =
        materializationCounters (loadedView rows)) ∧
    (∀ i now horizonSecs, sweepEligible rows i now horizonSecs = true → Sweepable rows i) ∧
    ∀ rows', RetentionRun rows rows' → loadedView rows' = loadedView rows ∧
      (∀ budget now, decide (loadedView rows') budget now = decide (loadedView rows) budget now) ∧
      materializationCounters (loadedView rows') = materializationCounters (loadedView rows) := by
  have hr : ∀ rows', RetentionRun rows rows' → loadedView rows' = loadedView rows ∧
      (∀ budget now, decide (loadedView rows') budget now = decide (loadedView rows) budget now) ∧
      materializationCounters (loadedView rows') = materializationCounters (loadedView rows) := by
    intro rows' h
    rw [h.loadedView_eq]
    exact ⟨rfl, fun _ _ => rfl, rfl⟩
  refine ⟨?_, ?_, hr⟩
  · intro deleted hd
    exact hr _ (.of_sweep hd)
  · intro i now horizonSecs h
    exact sweepable_of_sweepEligible h

def resubmitResetRow (cycle : Int32) (time : AbsTime) : LedgerRow String :=
  { workerReport .resubmitReset none time with
    eventKind := .reset, reportingParty := .scheduler, resubmitCycle := cycle }

def agedCycle : List (LedgerRow String) :=
  [.workerReport .transient (some "node-a") 10, resubmitResetRow 1 20,
    .workerReport .timeout (some "node-b") 1000000]

def sweptCycle (now : AbsTime) : List (LedgerRow String) :=
  deleteRows agedCycle fun i => sweepEligible agedCycle i now (sweepHorizonSecs {} 3600)

theorem retention_preserves_decisions_aged : (sweptCycle 1000010).length = 2 ∧
    decide (loadedView (sweptCycle 1000010)) {} 1000010 =
      decide (loadedView agedCycle) {} 1000010 := by
  obtain ⟨hs, he, _⟩ := retention_preserves_decisions agedCycle
  exact ⟨by decide, (hs _ fun i hi => he i _ _ hi).2.1 {} 1000010⟩

end RioBuild.Retry
