import RioBuild.Retry.Lanes

universe u

namespace RioBuild.Retry

open Lib

inductive FreeClass
  | workerAbort | storeDegraded
  deriving DecidableEq, Repr

def FreeClass.outcomeClass : FreeClass → OutcomeClass
  | .workerAbort => .disconnected
  | .storeDegraded => .storeDegraded

structure FreeBounds where
  workerAbort : UInt32 := workerAbortFreeCloses
  storeDegraded : UInt32 := storeDegradedFreeRun

def FreeBounds.bound (bounds : FreeBounds) : FreeClass → UInt32
  | .workerAbort => bounds.workerAbort
  | .storeDegraded => bounds.storeDegraded

structure FreeRow (Id : Type u) (cls : FreeClass) where
  row : LedgerRow Id
  kind_eq : row.kind = .build
  eventKind_eq : row.eventKind = .attempt
  reportingParty_eq : row.reportingParty = .worker
  outcomeClass_eq : row.outcomeClass = cls.outcomeClass

structure MaterializationRow (Id : Type u) where
  row : LedgerRow Id
  kind_eq : row.kind = .materialization

inductive FreeAction (Id : Type u) : Type u
  | report (cls : FreeClass) (r : FreeRow Id cls)
  | materialization (r : MaterializationRow Id)

variable {Id : Type u}

def admitFree (bounds : FreeBounds) (rows : List (LedgerRow Id)) :
    FreeClass → WorkerAbortAdmission
  | .workerAbort => admitWorkerAbort rows bounds.workerAbort
  | .storeDegraded => admitStoreDegraded rows bounds.storeDegraded

namespace FreeAction

def isReport : FreeAction Id → Bool
  | .report _ _ => true
  | .materialization _ => false

/-- A charged answer leaves the run: it appends no row here. -/
def step (bounds : FreeBounds) (rows : List (LedgerRow Id)) : FreeAction Id → List (LedgerRow Id)
  | .report cls r =>
    match admitFree bounds rows cls with
    | .uncharged => rows ++ [r.row]
    | .chargedFallthrough => rows
  | .materialization r => rows ++ [r.row]

def run (bounds : FreeBounds) (rows : List (LedgerRow Id)) (acts : List (FreeAction Id)) :
    List (LedgerRow Id) :=
  acts.foldl (step bounds) rows

def answers (bounds : FreeBounds) :
    List (LedgerRow Id) → List (FreeAction Id) → List (FreeClass × WorkerAbortAdmission)
  | _, [] => []
  | rows, .report cls r :: acts =>
    (cls, admitFree bounds rows cls) :: answers bounds (step bounds rows (.report cls r)) acts
  | rows, .materialization r :: acts => answers bounds (rows ++ [r.row]) acts

end FreeAction

theorem admitFree_eq :
    admitFree bounds rows cls = admitBoundedUncharged rows cls.outcomeClass (bounds.bound cls) := by
  cases cls <;> rfl

theorem admitFree_buildRows :
    admitFree bounds (buildRows rows) cls = admitFree bounds rows cls := by
  rw [admitFree_eq, admitFree_eq, admitBoundedUncharged_buildRows]

def freeCount (rows : List (LedgerRow Id)) (cls : FreeClass) : UInt32 :=
  trailingUnchargedClassCount rows cls.outcomeClass

theorem admitFree_eq_uncharged_iff :
    admitFree bounds rows cls = .uncharged ↔ freeCount rows cls < bounds.bound cls := by
  rw [admitFree_eq, admitBoundedUncharged, freeCount]
  split_ifs with h
  all_goals simpa using h

theorem admitFree_eq_charged_iff :
    admitFree bounds rows cls = .chargedFallthrough ↔ bounds.bound cls ≤ freeCount rows cls := by
  rw [← UInt32.not_lt, ← admitFree_eq_uncharged_iff]
  cases admitFree bounds rows cls <;> simp

theorem freeCount_concat_materialization (r : MaterializationRow Id) :
    freeCount (rows ++ [r.row]) cls = freeCount rows cls := by
  have hk : r.row.inLane .build = false := by simp [LedgerRow.inLane, r.kind_eq]
  have hb : isBoundedUnchargedRow r.row = false := by simp [isBoundedUnchargedRow, r.kind_eq]
  rw [freeCount, trailingUnchargedClassCount_concat, breaksRun, isUncharged, hk, hb]
  rfl

theorem freeCount_concat_report (r : FreeRow Id cls) : freeCount (rows ++ [r.row]) cls' =
    if cls' = cls then freeCount rows cls' + 1 else freeCount rows cls' := by
  have hb : isBoundedUnchargedRow r.row = true := by
    simp only [isBoundedUnchargedRow, r.kind_eq, r.eventKind_eq, r.reportingParty_eq,
      r.outcomeClass_eq]
    cases cls <;> rfl
  rw [freeCount, trailingUnchargedClassCount_concat, breaksRun, isUncharged, hb, r.outcomeClass_eq]
  cases cls <;> cases cls' <;> simp [FreeClass.outcomeClass, freeCount]

def slack (bounds : FreeBounds) (rows : List (LedgerRow Id)) (cls : FreeClass) : Nat :=
  (bounds.bound cls).toNat - (freeCount rows cls).toNat

theorem slack_concat_report (h : admitFree bounds rows cls = .uncharged) (r : FreeRow Id cls)
    (cls' : FreeClass) : slack bounds (rows ++ [r.row]) cls' + (if cls' = cls then 1 else 0) =
      slack bounds rows cls' := by
  rw [slack, slack, freeCount_concat_report]
  split
  · rename_i heq
    subst heq
    have hlt := admitFree_eq_uncharged_iff.mp h
    rw [U32.toNat_add_one_of_lt hlt]
    rw [UInt32.lt_iff_toNat_lt] at hlt
    omega
  · rfl

namespace FreeAction

/-- The potential argument: every uncharged answer spends one unit of its own class's
slack, and nothing in the run gives slack back. -/
theorem countP_answers_le (rows : List (LedgerRow Id)) (acts : List (FreeAction Id)) :
    (answers bounds rows acts).countP (fun ans => ans.2 = .uncharged) ≤
      slack bounds rows .workerAbort + slack bounds rows .storeDegraded := by
  induction acts generalizing rows with
  | nil => exact Nat.zero_le _
  | cons act acts ih =>
    cases act with
    | materialization r =>
      have ih := ih (rows ++ [r.row])
      simp only [slack, freeCount_concat_materialization] at ih
      exact ih
    | report cls r =>
      cases ha : admitFree bounds rows cls with
      | chargedFallthrough =>
        simp only [answers, step, ha]
        simpa using ih rows
      | uncharged =>
        have ih := ih (rows ++ [r.row])
        have hab := slack_concat_report ha r .workerAbort
        have hs := slack_concat_report ha r .storeDegraded
        simp only [answers, step, ha, List.countP_cons, decide_true, if_true]
        cases cls <;> simp only [if_true] at hab hs <;> omega

theorem charged_of_mem_answers (h : bounds.bound cls ≤ freeCount rows cls) :
    ∀ ans ∈ answers bounds rows acts, ans.1 = cls → ans.2 = .chargedFallthrough := by
  induction acts generalizing rows with
  | nil => simp [answers]
  | cons act acts ih =>
    cases act with
    | materialization r =>
      apply ih
      rwa [freeCount_concat_materialization]
    | report cls' r =>
      rw [answers, List.forall_mem_cons]
      constructor
      · rintro rfl
        exact admitFree_eq_charged_iff.mpr h
      · apply ih
        rw [step]
        cases ha : admitFree bounds rows cls' with
        | chargedFallthrough => exact h
        | uncharged =>
          have hne : cls ≠ cls' := by
            rintro rfl
            exact UInt32.not_lt.mpr h (admitFree_eq_uncharged_iff.mp ha)
          simpa [freeCount_concat_report, hne] using h

theorem answers_buildRows (rows : List (LedgerRow Id)) (acts : List (FreeAction Id)) :
    answers bounds (buildRows rows) (acts.filter isReport) = answers bounds rows acts := by
  induction acts generalizing rows with
  | nil => rfl
  | cons act acts ih =>
    cases act with
    | materialization r =>
      have hr : buildRows (rows ++ [r.row]) = buildRows rows := by
        simp [buildRows, LedgerRow.inLane, r.kind_eq]
      rw [answers, ← ih, hr]
      rfl
    | report cls r =>
      have hr : buildRows (rows ++ [r.row]) = buildRows rows ++ [r.row] := by
        simp [buildRows, LedgerRow.inLane, r.kind_eq]
      simp only [List.filter_cons, isReport, if_true, answers, step, admitFree_buildRows]
      cases admitFree bounds rows cls with
      | chargedFallthrough => simp [ih]
      | uncharged => simp [← hr, ih]

end FreeAction

theorem uncharged_admissions_bounded (bounds : FreeBounds) (rows : List (LedgerRow Id))
    (acts : List (FreeAction Id)) :
    (FreeAction.answers bounds rows acts).countP (fun ans => ans.2 = .uncharged) ≤
      bounds.workerAbort.toNat + bounds.storeDegraded.toNat ∧
    (∀ cls acts', (bounds.bound cls).toNat ≤ (trailingRun (FreeAction.run bounds rows acts)).countP
        (isUncharged cls.outcomeClass) % 2 ^ 32 →
      ∀ ans ∈ FreeAction.answers bounds (FreeAction.run bounds rows acts) acts',
        ans.1 = cls → ans.2 = .chargedFallthrough) ∧
    FreeAction.answers bounds rows acts =
      FreeAction.answers bounds (buildRows rows) (acts.filter FreeAction.isReport) := by
  refine ⟨?_, ?_, (FreeAction.answers_buildRows rows acts).symm⟩
  · apply (FreeAction.countP_answers_le rows acts).trans
    exact Nat.add_le_add (Nat.sub_le _ _) (Nat.sub_le _ _)
  · intro cls acts' hc
    apply FreeAction.charged_of_mem_answers
    rw [freeCount, trailingUnchargedClassCount_eq, UInt32.le_iff_toNat_le]
    exact hc

def freeReport (cls : FreeClass) : FreeAction String :=
  .report cls ⟨.workerReport cls.outcomeClass (some "node-a") 0, rfl, rfl, rfl, rfl⟩

def materialized : FreeAction String :=
  .materialization
    ⟨{ LedgerRow.workerReport .materializationInfra none 0 with kind := .materialization }, rfl⟩

def alternating : List (FreeAction String) :=
  [freeReport .workerAbort, freeReport .storeDegraded, materialized, freeReport .workerAbort,
    freeReport .storeDegraded, freeReport .workerAbort]

theorem uncharged_admissions_bounded_alternating :
    FreeAction.answers ⟨2, 1⟩ [] alternating =
      [(.workerAbort, .uncharged), (.storeDegraded, .uncharged), (.workerAbort, .uncharged),
        (.storeDegraded, .chargedFallthrough), (.workerAbort, .chargedFallthrough)] ∧
    (FreeAction.answers ⟨2, 1⟩ [] alternating).countP (fun ans => ans.2 = .uncharged) ≤ 2 + 1 ∧
    ∀ ans ∈ FreeAction.answers ⟨2, 1⟩ (FreeAction.run ⟨2, 1⟩ [] alternating) alternating,
      ans.1 = .workerAbort → ans.2 = .chargedFallthrough := by
  obtain ⟨hc, hb, -⟩ := uncharged_admissions_bounded ⟨2, 1⟩ [] alternating
  exact ⟨by decide +kernel, hc, hb .workerAbort alternating (by decide +kernel)⟩

def workerAbortRow : LedgerRow String := .workerReport .disconnected (some "node-a") 0

/-- The scan counts modulo `2 ^ 32`, so a trailing run of that many aborts is read as
empty. -/
theorem admitWorkerAbort_overflow :
    (trailingRun (List.replicate (2 ^ 32) workerAbortRow)).countP (isUncharged .disconnected) =
      2 ^ 32 ∧
    admitWorkerAbort (List.replicate (2 ^ 32) workerAbortRow) workerAbortFreeCloses =
      .uncharged := by
  have hrw : isUncharged .disconnected workerAbortRow = true := rfl
  have hr := countP_trailingRun_replicate hrw (2 ^ 32)
  refine ⟨hr, ?_⟩
  rw [admitWorkerAbort, admitBoundedUncharged, trailingUnchargedClassCount_eq, hr]
  rfl

end RioBuild.Retry
