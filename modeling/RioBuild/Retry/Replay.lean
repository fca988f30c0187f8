import RioBuild.Retry.Observable
import RioBuild.Retry.Retention

universe u

namespace RioBuild.Retry

open Lib List LedgerRow

variable {Id : Type u}

def LedgerRow.isBuildReset (r : LedgerRow Id) : Bool := r.inLane .build && r.isReset

def lastBuildReset (h : List (LedgerRow Id)) : Option (LedgerRow Id) :=
  h.reverse.find? isBuildReset

variable {r : LedgerRow Id}

variable {pre post : List (LedgerRow Id)}

theorem lastBuildReset_append_cons
    (hr : r.isBuildReset = true) (hp : ∀ x ∈ post, x.isBuildReset = false) :
    lastBuildReset (pre ++ r :: post) = some r := by
  have hn : post.reverse.find? isBuildReset = none := by
    simpa using hp
  rw [lastBuildReset, reverse_append, reverse_cons, append_assoc, find?_append, hn]
  simp [hr]

theorem filter_loadedView (lane : AttemptKind) (h : List (LedgerRow Id)) :
    (loadedView h).filter (inLane lane) = LaneLog.view kind isReset (h.filter (inLane lane)) := by
  rw [loadedView_eq_view]
  exact LaneLog.view_filter_lane lane h

theorem buildRows_loadedView (h : List (LedgerRow Id)) :
    buildRows (loadedView h) = LaneLog.view kind isReset (buildRows h) :=
  filter_loadedView .build h

variable {h : List (LedgerRow Id)}

theorem materializationCounters_view (hl : ∀ r ∈ h, r.inLane .materialization = true) :
    materializationCounters (LaneLog.view kind isReset h) = materializationCounters h := by
  rcases exists_last_or_forall isReset h with hn | ⟨pre, r, post, rfl, hr, hp⟩
  · rw [LaneLog.view_eq_self hn]
  · have hk : ∀ x ∈ pre ++ r :: post, x.kind = .materialization := by
      simpa [inLane] using hl
    have ha : ∀ l, afterLast (fun x : LedgerRow Id => x.inLane .materialization && x.isReset)
        (l ++ r :: post) = post := by
      intro l
      apply afterLast_append_cons
      · simp [hr, hl r (by simp)]
      · intro x hx
        simp [hp x hx]
    rw [LaneLog.view_append_cons _ hr hp, materializationCounters_eq, materializationCounters_eq,
      ha pre, ← nil_append (r :: post), ha []]
    intro x hx
    rw [hk x (by simp [hx]), hk r (by simp)]

theorem materializationCounters_loadedView (h : List (LedgerRow Id)) :
    materializationCounters (loadedView h) = materializationCounters h := by
  rw [← materializationCounters_filter (loadedView h), filter_loadedView,
    materializationCounters_view, materializationCounters_filter]
  intro r hr
  exact (mem_filter.mp hr).2

variable [DecidableEq Id]

namespace FoldState

theorem step_reset (hr : r.isBuildReset = true) (he : rowToEvent r = some ev) : step budget s r =
    { counters := (s.counters.apply ev budget {}).1
      verdict := (s.counters.apply ev budget {}).2 } := by
  have hk : r.kind = .build ∧ r.eventKind = .reset := by
    simpa [isBuildReset, inLane, isReset] using hr
  have hb : isBoundedUnchargedRow r = false := by simp [isBoundedUnchargedRow, hk]
  rw [step, runStep_of_kind hk.1, hb]
  simp [observe, he]

end FoldState

/-- What the writers guarantee of build reset rows: one of the three reset classes, and a
resubmit reset records the cycle it opens. -/
structure Replayable (budget : Budget) (h : List (LedgerRow Id)) : Prop where
  resetClass : ∀ r ∈ h, r.kind = .build → r.eventKind = .reset →
    r.outcomeClass = .resubmitReset ∨ r.outcomeClass = .cacheHitClear ∨
      r.outcomeClass = .poisonCleared
  resubmitCycle : ∀ i : Fin h.length, (h.get i).kind = .build → (h.get i).eventKind = .reset →
    (h.get i).outcomeClass = .resubmitReset →
      (h.get i).resubmitCycle.toInt = 1 + (((h.take i).foldl (FoldState.step budget)
        { counters := initialCounters h }).counters.resubmitCycles.toNat : Int)

theorem seed_eq {cycle : Int32} (h : cycle.toInt = 1 + (n.toNat : Int)) :
    U32.saturatingSub (.ofNat cycle.toInt.toNat) 1 = n := by
  have := cycle.toInt_lt
  rw [← UInt32.toNat_inj, U32.toNat_saturatingSub, UInt32.toNat_ofNat', UInt32.toNat_one]
  omega

theorem foldHistory_loadedView_of_reset
    (hr : r.isBuildReset = true) (hp : ∀ x ∈ post, x.isBuildReset = false) :
    foldHistory (loadedView (pre ++ r :: post)) budget = foldHistory (r :: post) budget := by
  have hk : r.inLane .build = true ∧ r.isReset = true := by
    simpa [isBuildReset] using hr
  have hs : buildRows (pre ++ r :: post) = buildRows pre ++ r :: buildRows post := by
    simp [buildRows, hk.1]
  rw [← foldHistory_buildRows, buildRows_loadedView, hs, LaneLog.view_append_cons,
    ← foldHistory_buildRows (r :: post)]
  · simp [buildRows, hk.1]
  · intro x hx
    simp_all [buildRows, inLane]
  · exact hk.2
  · intro x hx
    simp only [buildRows, mem_filter] at hx
    simpa [isBuildReset, hx.2] using hp x hx.1

theorem foldHistory_loadedView_of_no_reset
    (hr : ∀ x ∈ h, x.isBuildReset = false) (budget : Budget) :
    foldHistory (loadedView h) budget = foldHistory h budget := by
  rw [← foldHistory_buildRows, buildRows_loadedView, LaneLog.view_eq_self, foldHistory_buildRows]
  intro x hx
  simp only [buildRows, mem_filter] at hx
  simpa [isBuildReset, hx.2] using hr x hx.1

theorem FoldState.step_seed (budget : Budget) (hr : r.isBuildReset = true)
    (hcl : r.outcomeClass = .resubmitReset ∨ r.outcomeClass = .cacheHitClear ∨
      r.outcomeClass = .poisonCleared)
    (hcy : r.outcomeClass = .resubmitReset →
      r.resubmitCycle.toInt = 1 + (s.counters.resubmitCycles.toNat : Int))
    (post : List (LedgerRow Id)) :
    (step budget { counters := initialCounters (r :: post) } r).observable =
        (step budget s r).observable ∧
      (r.outcomeClass ≠ .cacheHitClear →
        step budget { counters := initialCounters (r :: post) } r = step budget s r) := by
  have hk : r.inLane .build = true ∧ r.eventKind = .reset := by
    simpa [isBuildReset, isReset] using hr
  rcases hcl with hc | hc | hc
  · have he : rowToEvent r = some (.resubmitReset r.time) := by simp [rowToEvent, hk, hc]
    have hi : (initialCounters (r :: post)).resubmitCycles = s.counters.resubmitCycles := by
      simpa [initialCounters, hk, hc] using seed_eq (hcy hc)
    have heq : step budget { counters := initialCounters (r :: post) } r = step budget s r := by
      rw [step_reset hr he, step_reset hr he]
      simp [Counters.apply, hi]
    exact ⟨by rw [heq], fun _ => heq⟩
  · have he : rowToEvent r = some (.cacheHitClear r.time) := by simp [rowToEvent, hk, hc]
    rw [step_reset hr he, step_reset hr he]
    exact ⟨rfl, fun hne => absurd hc hne⟩
  · have he : rowToEvent r = some (.poisonCleared r.time) := by simp [rowToEvent, hk, hc]
    rw [step_reset hr he, step_reset hr he]
    exact ⟨rfl, fun _ => rfl⟩

theorem foldHistory_loadedView (hrp : Replayable budget h) :
    (foldHistory (loadedView h) budget).observable = (foldHistory h budget).observable ∧
      ((∀ r, lastBuildReset h = some r → r.outcomeClass ≠ .cacheHitClear) →
        foldHistory (loadedView h) budget = foldHistory h budget) := by
  rcases exists_last_or_forall isBuildReset h with hn | ⟨pre, r, post, rfl, hr, hp⟩
  · have heq := foldHistory_loadedView_of_no_reset hn budget
    exact ⟨by rw [heq], fun _ => heq⟩
  · have hk : r.kind = .build ∧ r.eventKind = .reset := by
      simpa [isBuildReset, inLane, isReset] using hr
    have hc := hrp.resubmitCycle ⟨pre.length, by simp⟩
    simp only [get_eq_getElem, getElem_append_right le_rfl, Nat.sub_self, take_left'] at hc
    obtain ⟨ho, heq⟩ := FoldState.step_seed budget hr
      (hrp.resetClass r (by simp) hk.1 hk.2) (hc hk.1 hk.2) post
    rw [foldHistory_loadedView_of_reset hr hp, lastBuildReset_append_cons hr hp]
    simp only [foldHistory, foldl_append, foldl_cons]
    refine ⟨by rw [FoldState.observable_foldl, ho, FoldState.observable_foldl], ?_⟩
    intro hne
    rw [heq (hne r rfl)]

theorem decide_loadedView (h : List (LedgerRow Id)) : (∀ budget now, Replayable budget h →
      (decide (loadedView h) budget now).verdict = (decide h budget now).verdict ∧
      (decide (loadedView h) budget now).exclusion = (decide h budget now).exclusion ∧
      (decide (loadedView h) budget now).counters.eraseBackoff =
        (decide h budget now).counters.eraseBackoff ∧
      ((∀ r, lastBuildReset h = some r → r.outcomeClass ≠ .cacheHitClear) →
        decide (loadedView h) budget now = decide h budget now)) ∧
    materializationCounters (loadedView h) = materializationCounters h := by
  refine ⟨?_, materializationCounters_loadedView h⟩
  intro budget now hr
  obtain ⟨ho, heq⟩ := foldHistory_loadedView hr
  have hc : (foldHistory (loadedView h) budget).counters.eraseBackoff =
      (foldHistory h budget).counters.eraseBackoff := congrArg Prod.fst ho
  have hv : (foldHistory (loadedView h) budget).verdict = (foldHistory h budget).verdict :=
    congrArg Prod.snd ho
  refine ⟨?_, ?_, hc, ?_⟩
  · simp only [decide]
    rw [hv, ttlDowngrade_congr hc]
  · change (foldHistory (loadedView h) budget).counters.eraseBackoff.failedBuilders =
      (foldHistory h budget).counters.eraseBackoff.failedBuilders
    rw [hc]
  · intro hne
    simp [decide, heq hne]

def twoCycles : List (LedgerRow String) :=
  [.workerReport .permanent (some "node-a") 10, resubmitResetRow 1 20,
    { resubmitResetRow 0 25 with outcomeClass := .materializationReset, kind := .materialization },
    .workerReport .transient (some "node-b") 30, resubmitResetRow 2 40,
    .workerReport .timeout (some "node-c") 50]

theorem decide_loadedView_twoCycles : Replayable {} twoCycles ∧ (loadedView twoCycles).length = 3 ∧
      decide (loadedView twoCycles) {} 60 = decide twoCycles {} 60 := by
  have hrp : Replayable {} twoCycles := ⟨by decide, by decide⟩
  refine ⟨hrp, by decide, ?_⟩
  apply ((decide_loadedView twoCycles).1 {} 60 hrp).2.2.2
  intro r hr
  cases hr
  decide

end RioBuild.Retry
