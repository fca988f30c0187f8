import RioBuild.Retry.Admission

universe u

namespace RioBuild.Retry

open Lib List

inductive MaterializationVerdict
  | claimable | park
  deriving DecidableEq, Repr

structure MatCounters where
  infraSinceReset : UInt32 := 0
  workerInfraSinceReset : UInt32 := 0
  unobtainableSinceReset : UInt32 := 0
  deriving DecidableEq, Repr

variable {Id : Type u}

def MatCounters.charge (c : MatCounters) (r : LedgerRow Id) : MatCounters :=
  match r.outcomeClass with
  | .materializationInfra =>
    let c := { c with infraSinceReset := c.infraSinceReset + 1 }
    if r.reportingParty = .worker then
      { c with workerInfraSinceReset := c.workerInfraSinceReset + 1 }
    else c
  | .materializationUnobtainable =>
    { c with unobtainableSinceReset := c.unobtainableSinceReset + 1 }
  | _ => c

def materializationCounters (rows : List (LedgerRow Id)) : MatCounters :=
  ((rows.reverse.takeWhile (fun r => !(r.inLane .materialization && r.isReset))).filter
    (LedgerRow.inLane .materialization)).foldl MatCounters.charge {}

def materializationDecide (rows : List (LedgerRow Id)) (maxMaterializationAttempts : UInt32) :
    MaterializationVerdict :=
  if (materializationCounters rows).infraSinceReset ≥ maxMaterializationAttempts then .park
  else .claimable

theorem materializationCounters_eq (rows : List (LedgerRow Id)) : materializationCounters rows =
    ((afterLast (fun r => r.inLane .materialization && r.isReset) rows).reverse.filter
      (LedgerRow.inLane .materialization)).foldl MatCounters.charge {} := by
  rw [afterLast, rtakeWhile, reverse_reverse]
  rfl

theorem materializationCounters_filter (rows : List (LedgerRow Id)) :
    materializationCounters (rows.filter (LedgerRow.inLane .materialization)) =
      materializationCounters rows := by
  unfold materializationCounters
  rw [← filter_reverse, takeWhile_filter]
  simp

theorem materializationDecide_filter (rows : List (LedgerRow Id)) (maxAttempts : UInt32) :
    materializationDecide (rows.filter (LedgerRow.inLane .materialization)) maxAttempts =
      materializationDecide rows maxAttempts := by
  rw [materializationDecide, materializationCounters_filter]
  rfl

def buildRows (h : List (LedgerRow Id)) : List (LedgerRow Id) := h.filter (LedgerRow.inLane .build)

def materializationRows (h : List (LedgerRow Id)) : List (LedgerRow Id) :=
  h.filter (LedgerRow.inLane .materialization)

/-- The history `h` merges the build rows `bs` and the materialization rows `ms`, each in order. -/
structure Interleaves (bs ms h : List (LedgerRow Id)) : Prop where
  build : buildRows h = bs
  materialization : materializationRows h = ms

theorem initialCounters_buildRows (h : List (LedgerRow Id)) :
    initialCounters (buildRows h) = initialCounters h := by
  have hf : (buildRows h).find? (LedgerRow.inLane .build) = h.find? (LedgerRow.inLane .build) := by
    simp [buildRows]
  unfold initialCounters
  rw [hf]

theorem scanRun_filter :
    scanRun cls (rows.filter (LedgerRow.inLane .build)) n = scanRun cls rows n := by
  induction rows generalizing n with
  | nil => rfl
  | cons r rows ih =>
    cases hr : r.inLane .build with
    | true =>
      rw [List.filter_cons_of_pos hr]
      simp [scanRun, ih]
    | false =>
      have hk : r.kind ≠ .build := by simpa [LedgerRow.inLane] using hr
      rw [List.filter_cons_of_neg (by simp [hr]), ih]
      simp [scanRun, runStep_of_kind_ne hk]

theorem admitBoundedUncharged_buildRows (h : List (LedgerRow Id)) (bound : UInt32) :
    admitBoundedUncharged (buildRows h) cls bound = admitBoundedUncharged h cls bound := by
  unfold admitBoundedUncharged trailingUnchargedClassCount
  rw [buildRows, ← List.filter_reverse, scanRun_filter]

variable [DecidableEq Id]

theorem foldHistory_buildRows (h : List (LedgerRow Id)) :
    foldHistory (buildRows h) budget = foldHistory h budget := by
  have hs : ∀ s (r : LedgerRow Id),
      (if r.inLane .build then FoldState.step budget s r else s) = FoldState.step budget s r := by
    intro s r
    cases hr : r.inLane .build with
    | true => rfl
    | false => rw [FoldState.step_of_kind_ne (by simpa [LedgerRow.inLane] using hr)]; rfl
  unfold foldHistory
  rw [initialCounters_buildRows, buildRows, List.foldl_filter]
  simp [hs]

theorem decide_buildRows (h : List (LedgerRow Id)) (budget : Budget) (now : AbsTime) :
    decide (buildRows h) budget now = decide h budget now := by
  simp [decide, foldHistory_buildRows]

theorem lanes_independent (h : List (LedgerRow Id)) :
    (∀ budget now, decide h budget now = decide (buildRows h) budget now) ∧
    materializationCounters h = materializationCounters (materializationRows h) ∧
    (∀ maxAttempts, materializationDecide h maxAttempts =
      materializationDecide (materializationRows h) maxAttempts) ∧
    (∀ bound, admitWorkerAbort h bound = admitWorkerAbort (buildRows h) bound) ∧
    (∀ bound, admitStoreDegraded h bound = admitStoreDegraded (buildRows h) bound) ∧
    ∀ bs ms h', Interleaves bs ms h → Interleaves bs ms h' →
      (∀ budget now, decide h' budget now = decide h budget now) ∧
      materializationCounters h' = materializationCounters h ∧
      (∀ maxAttempts, materializationDecide h' maxAttempts =
        materializationDecide h maxAttempts) ∧
      (∀ bound, admitWorkerAbort h' bound = admitWorkerAbort h bound) ∧
      (∀ bound, admitStoreDegraded h' bound = admitStoreDegraded h bound) ∧
      initialCounters h' = initialCounters h := by
  refine ⟨?_, ?_, ?_, ?_, ?_, ?_⟩
  · intro budget now
    exact (decide_buildRows h budget now).symm
  · exact (materializationCounters_filter h).symm
  · intro maxAttempts
    exact (materializationDecide_filter h maxAttempts).symm
  · intro bound
    exact (admitBoundedUncharged_buildRows h bound).symm
  · intro bound
    exact (admitBoundedUncharged_buildRows h bound).symm
  · intro bs ms h' hi hi'
    have hb : buildRows h' = buildRows h := hi'.build.trans hi.build.symm
    have hm := hi'.materialization.trans hi.materialization.symm
    refine ⟨?_, ?_, ?_, ?_, ?_, ?_⟩
    · intro budget now
      rw [← decide_buildRows h', hb, decide_buildRows]
    · rw [← materializationCounters_filter h', ← materializationCounters_filter h]
      exact congrArg materializationCounters hm
    · intro maxAttempts
      rw [← materializationDecide_filter h', ← materializationDecide_filter h]
      exact congrArg (materializationDecide · maxAttempts) hm
    · intro bound
      unfold admitWorkerAbort
      rw [← admitBoundedUncharged_buildRows h', hb, admitBoundedUncharged_buildRows]
    · intro bound
      unfold admitStoreDegraded
      rw [← admitBoundedUncharged_buildRows h', hb, admitBoundedUncharged_buildRows]
    · rw [← initialCounters_buildRows h', hb, initialCounters_buildRows]

end RioBuild.Retry
