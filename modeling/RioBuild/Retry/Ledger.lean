import RioBuild.Retry.Fold

universe u

namespace RioBuild.Retry

open Lib

inductive AttemptEventKind
  | attempt | reset
  deriving DecidableEq, Repr

inductive OutcomeClass
  | transient | infra | exemptInfra | timeout | permanent | executorVariant | cascade | backstop
  | disconnected | executorCrash | fleetExhaust | resubmitReset | cacheHitClear | poisonCleared
  | materializationUnobtainable | materializationInfra | materializationReset | storeDegraded
  deriving DecidableEq, Repr

inductive ReportingParty
  | worker | controller | scheduler | admin
  deriving DecidableEq, Repr

inductive AttemptKind
  | build | materialization
  deriving DecidableEq, Repr

structure LedgerRow (Id : Type u) where
  eventKind : AttemptEventKind
  outcomeClass : OutcomeClass
  executor : Option Id
  reportingParty : ReportingParty
  floorPromoted : Bool
  floorAtCap : Bool
  resubmitCycle : Int32
  time : AbsTime
  kind : AttemptKind
  deriving DecidableEq

structure Decision (Id : Type u) where
  verdict : Verdict
  exclusion : IdSet Id
  backoffUntil : Option AbsTime
  counters : Counters Id
  deriving DecidableEq

variable {Id : Type u}

def LedgerRow.inLane (lane : AttemptKind) (r : LedgerRow Id) : Bool := r.kind = lane

def LedgerRow.isReset (r : LedgerRow Id) : Bool := r.eventKind = .reset

def LedgerRow.workerReport (cls : OutcomeClass) (executor : Option Id) (time : AbsTime) :
    LedgerRow Id where
  eventKind := .attempt
  outcomeClass := cls
  executor := executor
  reportingParty := .worker
  floorPromoted := false
  floorAtCap := false
  resubmitCycle := 0
  time := time
  kind := .build

def rowToEvent (row : LedgerRow Id) : Option (AttemptEvent Id) :=
  let time := row.time
  let executor := row.executor
  if row.eventKind = .reset then
    match row.outcomeClass with
    | .resubmitReset => some (.resubmitReset time)
    | .cacheHitClear => some (.cacheHitClear time)
    | .poisonCleared => some (.poisonCleared time)
    | _ => none
  else
    let workerReported : Bool := row.reportingParty = .worker
    match row.outcomeClass with
    | .transient => some (.transient time executor)
    | .infra | .exemptInfra =>
      let exempt : Bool := row.outcomeClass = .exemptInfra
      if workerReported then some (.infra time executor exempt row.floorAtCap)
      else some (.controllerTermination time executor (exempt || row.floorPromoted) row.floorAtCap)
    | .timeout =>
      if workerReported then some (.workerTimeout time executor)
      else some (.controllerDeadlineExceeded time executor)
    | .permanent => some (.permanent time executor)
    | .executorVariant => some (.executorVariant time executor row.floorAtCap)
    | .backstop => some (.backstopTimeout time executor)
    | .disconnected => some (.disconnect time executor)
    | .executorCrash => some (.establishedCrash time executor)
    | .cascade | .fleetExhaust => none
    | .storeDegraded => none
    | .resubmitReset | .cacheHitClear | .poisonCleared => none
    | .materializationUnobtainable | .materializationInfra | .materializationReset => none

def workerAbortFreeCloses : UInt32 := 3

def storeDegradedFreeRun : UInt32 := 12

def boundedUncharged : List (OutcomeClass × UInt32) :=
  [(.disconnected, workerAbortFreeCloses), (.storeDegraded, storeDegradedFreeRun)]

def isBoundedUnchargedRow (r : LedgerRow Id) : Bool :=
  r.kind = .build && r.eventKind = .attempt && r.reportingParty = .worker &&
    boundedUncharged.any (fun e => e.1 = r.outcomeClass)

inductive RunStep
  | laneSkip | pace | extend | breakRun
  deriving DecidableEq, Repr

def runStep (r : LedgerRow Id) (pacedClass : OutcomeClass) : RunStep :=
  if r.kind ≠ .build then .laneSkip
  else if !isBoundedUnchargedRow r then .breakRun
  else if r.outcomeClass = pacedClass then .pace
  else .extend

def visibleEvent (row : LedgerRow Id) : Option (AttemptEvent Id) :=
  if row.kind = .build then rowToEvent row else none

variable {r : LedgerRow Id}

theorem rowToEvent_storeDegraded (h : r.outcomeClass = .storeDegraded) : rowToEvent r = none := by
  cases hk : r.eventKind <;> simp [rowToEvent, h]

theorem runStep_of_kind_ne (h : r.kind ≠ .build) : runStep r c = .laneSkip := by
  rw [runStep, if_pos h]

theorem runStep_of_kind (h : r.kind = .build) : runStep r c = if isBoundedUnchargedRow r then
    (if r.outcomeClass = c then .pace else .extend) else .breakRun := by
  rw [runStep, if_neg (not_not.mpr h)]
  cases isBoundedUnchargedRow r <;> rfl

theorem outcomeClass_of_pace (h : runStep r c = .pace) : r.outcomeClass = c := by
  by_cases hk : r.kind = .build
  · rw [runStep_of_kind hk] at h
    split at h
    · split at h
      · assumption
      · cases h
    · cases h
  · rw [runStep_of_kind_ne hk] at h
    cases h

/-- A suffix that starts at a resubmit reset carries the new cycle index on that row;
"starts" looks at the build rows only. -/
def initialCounters (history : List (LedgerRow Id)) : Counters Id :=
  match history.find? (LedgerRow.inLane .build) with
  | some first =>
    if first.eventKind = .reset ∧ first.outcomeClass = .resubmitReset then
      { resubmitCycles := U32.saturatingSub (.ofNat first.resubmitCycle.toInt.toNat) 1 }
    else {}
  | none => {}

theorem initialCounters_eq (history : List (LedgerRow Id)) :
    ∃ n, initialCounters history = { resubmitCycles := n } := by
  unfold initialCounters
  split
  · split
    · exact ⟨_, rfl⟩
    · exact ⟨0, rfl⟩
  · exact ⟨0, rfl⟩

theorem initialCounters_concat (hr : r.isReset = false) :
    initialCounters (h ++ [r]) = initialCounters h := by
  have hr : r.eventKind ≠ .reset := by simpa [LedgerRow.isReset] using hr
  unfold initialCounters
  rw [List.find?_append]
  cases h.find? (LedgerRow.inLane .build) with
  | some first => rfl
  | none => cases hk : r.inLane .build <;> simp [hk, hr]

/-- The fold's local variables: `storeDegradedRun` is the store-degraded count within
the trailing bounded-uncharged run. -/
structure FoldState (Id : Type u) where
  counters : Counters Id
  verdict : Verdict := .requeue
  storeDegradedRun : UInt32 := 0

variable [DecidableEq Id]

namespace FoldState

def observe (s : FoldState Id) (row : LedgerRow Id) (budget : Budget) : FoldState Id :=
  match rowToEvent row with
  | some ev =>
    let r := s.counters.apply ev budget {}
    { s with counters := r.1, verdict := r.2 }
  | none => s

def pace (s : FoldState Id) (row : LedgerRow Id) (budget : Budget) : FoldState Id :=
  let deadline := U64.saturatingAdd row.time (budget.backoffSecs s.storeDegradedRun)
  let backoff := match s.counters.backoffUntil with
    | some b => if b > deadline then b else deadline
    | none => deadline
  { s with
      counters := { s.counters with backoffUntil := some backoff }
      storeDegradedRun := U32.saturatingAdd s.storeDegradedRun 1 }

def step (budget : Budget) (s : FoldState Id) (row : LedgerRow Id) : FoldState Id :=
  match runStep row .storeDegraded with
  | .laneSkip => s
  | .pace => s.pace row budget
  | .extend => s.observe row budget
  | .breakRun => { s with storeDegradedRun := 0 }.observe row budget

end FoldState

def foldHistory (history : List (LedgerRow Id)) (budget : Budget) : FoldState Id :=
  history.foldl (FoldState.step budget) { counters := initialCounters history }

def decide (history : List (LedgerRow Id)) (budget : Budget) (now : AbsTime) : Decision Id :=
  let s := foldHistory history budget
  { verdict := ttlDowngrade s.counters s.verdict now budget
    exclusion := s.counters.failedBuilders
    backoffUntil := s.counters.backoffUntil
    counters := s.counters }

namespace FoldState

theorem step_of_kind_ne (h : row.kind ≠ .build) (s : FoldState Id) : step budget s row = s := by
  rw [step, runStep_of_kind_ne h]

/-- The verdict, and every counter but `backoffUntil`, moves with the visible event alone: pacing
rows and rows without an event leave it where it was. -/
theorem step_moves {g : Counters Id → Verdict → β}
    (hg : ∀ c u v, g { c with backoffUntil := u } v = g c v) (budget : Budget) (s : FoldState Id)
    (row : LedgerRow Id) : g (step budget s row).counters (step budget s row).verdict =
      (visibleEvent row).elim (g s.counters s.verdict) fun ev =>
        g (s.counters.apply ev budget {}).1 (s.counters.apply ev budget {}).2 := by
  by_cases hk : row.kind = .build
  · rw [step, visibleEvent, if_pos hk]
    cases h : runStep row .storeDegraded with
    | laneSkip => rw [runStep_of_kind hk] at h; split_ifs at h
    | pace =>
      rw [rowToEvent_storeDegraded (outcomeClass_of_pace h)]
      exact hg s.counters _ s.verdict
    | extend | breakRun => simp only [observe]; cases rowToEvent row <;> rfl
  · rw [step_of_kind_ne hk, visibleEvent, if_neg hk]
    rfl

theorem step_verdict (budget : Budget) (s : FoldState Id) (row : LedgerRow Id) :
    (step budget s row).verdict =
      (visibleEvent row).elim s.verdict fun ev => (s.counters.apply ev budget {}).2 :=
  step_moves (g := fun _ v => v) (fun _ _ _ => rfl) budget s row

theorem step_proj {g : Counters Id → β} (hg : ∀ c u, g { c with backoffUntil := u } = g c)
    (budget : Budget) (s : FoldState Id) (row : LedgerRow Id) : g (step budget s row).counters =
      (visibleEvent row).elim (g s.counters) fun ev => g (s.counters.apply ev budget {}).1 :=
  step_moves (g := fun c _ => g c) (fun c u _ => hg c u) budget s row

end FoldState

theorem foldHistory_concat (hr : r.isReset = false) :
    foldHistory (h ++ [r]) budget = FoldState.step budget (foldHistory h budget) r := by
  rw [foldHistory, initialCounters_concat hr, List.foldl_concat]
  rfl

/-- The invariant rule of the fold: what holds initially, does not read the backoff
deadline and survives every event, holds of every decision. -/
theorem foldHistory_invariant {P : Counters Id → Verdict → Prop}
    (hi : P (initialCounters h) .requeue) (hb : ∀ c v u, P c v → P { c with backoffUntil := u } v)
    (ha : ∀ c v ev, P c v → P (c.apply ev budget {}).1 (c.apply ev budget {}).2) :
    P (foldHistory h budget).counters (foldHistory h budget).verdict := by
  have ho : ∀ (s : FoldState Id) r, P s.counters s.verdict →
      P (s.observe r budget).counters (s.observe r budget).verdict := by
    intro s r hs
    rw [FoldState.observe]
    cases rowToEvent r with
    | none => exact hs
    | some ev => exact ha _ _ ev hs
  have hst : ∀ s r, P s.counters s.verdict →
      P (FoldState.step budget s r).counters (FoldState.step budget s r).verdict := by
    intro s r hs
    rw [FoldState.step]
    cases runStep r .storeDegraded with
    | laneSkip => exact hs
    | pace => exact hb _ _ _ hs
    | extend => exact ho s r hs
    | breakRun => exact ho { s with storeDegradedRun := 0 } r hs
  refine List.foldlRecOn h (FoldState.step budget) (motive := fun s => P s.counters s.verdict) ?_ ?_
  · exact hi
  · intro s hs r _
    exact hst s r hs

end RioBuild.Retry
