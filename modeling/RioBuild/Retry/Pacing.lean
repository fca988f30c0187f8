import RioBuild.Retry.Admission

universe u

namespace RioBuild.Retry

open Lib FoldState

variable {Id : Type u}

theorem FoldState.pace_backoffUntil (s : FoldState Id) :
    (s.pace r budget).counters.backoffUntil = max s.counters.backoffUntil
        (some (U64.saturatingAdd r.time (budget.backoffSecs s.storeDegradedRun))) := by
  unfold pace
  cases s.counters.backoffUntil with
  | none => rfl
  | some b =>
    simp only [Option.max_some_some]
    congr 1
    rw [UInt64.max_def]
    split <;> split <;> grind

variable [DecidableEq Id]

namespace FoldState

@[simp] theorem observe_storeDegradedRun (s : FoldState Id) (row : LedgerRow Id)
    (budget : Budget) : (s.observe row budget).storeDegradedRun = s.storeDegradedRun := by
  rw [observe]
  cases rowToEvent row <;> rfl

theorem step_storeDegradedRun (budget : Budget) (s : FoldState Id) (row : LedgerRow Id) :
    (step budget s row).storeDegradedRun = if breaksRun row then 0
      else if isUncharged .storeDegraded row then U32.saturatingAdd s.storeDegradedRun 1
      else s.storeDegradedRun := by
  rw [step, runStep_eq]
  cases breaksRun row with
  | true => exact observe_storeDegradedRun _ row budget
  | false =>
    cases isUncharged .storeDegraded row with
    | true => rfl
    | false =>
      cases row.inLane .build with
      | true => exact observe_storeDegradedRun s row budget
      | false => rfl

end FoldState

theorem foldHistory_storeDegradedRun (h : List (LedgerRow Id)) :
    (foldHistory h budget).storeDegradedRun.toNat =
      min (2 ^ 32 - 1) ((trailingRun h).countP (isUncharged .storeDegraded)) := by
  have hf : (foldHistory h budget).storeDegradedRun =
      (trailingRun h).foldl (fun n r => if isUncharged .storeDegraded r
        then U32.saturatingAdd n 1 else n) 0 :=
    foldl_afterLast (step_storeDegradedRun budget) rfl h
  rw [hf]
  apply foldl_capped
  intro n hn
  rw [U32.toNat_saturatingAdd]
  exact min_comm _ _

theorem FoldState.step_of_isUncharged (hr : isUncharged .storeDegraded r = true)
    (s : FoldState Id) : step budget s r = s.pace r budget := by
  have hb : isBoundedUnchargedRow r = true := by
    rw [isUncharged, Bool.and_eq_true] at hr
    exact hr.1
  rw [step, runStep_eq, breaksRun, hb, hr]
  simp

theorem foldHistory_concat_storeDegraded (h : List (LedgerRow Id))
    (hr : isUncharged .storeDegraded r = true) :
    foldHistory (h ++ [r]) budget = (foldHistory h budget).pace r budget := by
  rw [foldHistory_concat (isReset_of_isUncharged hr), step_of_isUncharged hr]

theorem storeDegradedRun_eq_trailing {h : List (LedgerRow Id)} (budget : Budget)
    (hl : (trailingRun h).countP (isUncharged .storeDegraded) < 2 ^ 32) :
    (foldHistory h budget).storeDegradedRun = trailingUnchargedClassCount h .storeDegraded := by
  rw [← UInt32.toNat_inj, foldHistory_storeDegradedRun, trailingUnchargedClassCount_eq,
    UInt32.toNat_ofNat']
  omega

theorem decide_concat_storeDegraded (h : List (LedgerRow Id)) (budget : Budget) (now : AbsTime)
    (r : LedgerRow Id) (hkind : r.kind = .build) (hevent : r.eventKind = .attempt)
    (hparty : r.reportingParty = .worker) (hcls : r.outcomeClass = .storeDegraded)
    (hlen : (trailingRun h).countP (isUncharged .storeDegraded) < 2 ^ 32) :
    (decide (h ++ [r]) budget now).backoffUntil = max (decide h budget now).backoffUntil
        (some (U64.saturatingAdd r.time
          (budget.backoffSecs (trailingUnchargedClassCount h .storeDegraded)))) ∧
    (foldHistory (h ++ [r]) budget).verdict = (foldHistory h budget).verdict ∧
    (decide (h ++ [r]) budget now).exclusion = (decide h budget now).exclusion ∧
    (decide (h ++ [r]) budget now).counters =
      { (decide h budget now).counters with
        backoffUntil := (decide (h ++ [r]) budget now).backoffUntil } := by
  have hr := isUncharged_of_fields hkind hevent hparty hcls rfl
  simp only [decide, foldHistory_concat_storeDegraded h hr]
  refine ⟨?_, rfl, rfl, rfl⟩
  rw [pace_backoffUntil, storeDegradedRun_eq_trailing budget hlen]

def storeDegradedRow (time : AbsTime) : LedgerRow String := .workerReport .storeDegraded none time

theorem decide_concat_storeDegraded_twelfth :
    (decide (List.replicate 11 (storeDegradedRow 0) ++ [storeDegradedRow 1000]) {} 0).backoffUntil =
      some 1300 :=
  (decide_concat_storeDegraded (List.replicate 11 (storeDegradedRow 0)) {} 0
    (storeDegradedRow 1000) rfl rfl rfl rfl (by decide)).1.trans (by decide)

theorem backoffUntil_replicate_le (b : AbsTime)
    (hb : (foldHistory (List.replicate n (storeDegradedRow 0)) {}).counters.backoffUntil = some b) :
    b ≤ 300 := by
  induction n generalizing b with
  | zero => cases hb
  | succ n ih =>
    rw [List.replicate_succ', foldHistory_concat_storeDegraded _ rfl, pace_backoffUntil] at hb
    have hc := Budget.backoffSecs_le {}
      (foldHistory (List.replicate n (storeDegradedRow 0)) {}).storeDegradedRun
    rw [show (storeDegradedRow 0).time = 0 from rfl, U64.saturatingAdd_zero_left] at hb
    cases hp : (foldHistory (List.replicate n (storeDegradedRow 0)) {}).counters.backoffUntil with
    | none =>
      rw [hp] at hb
      cases hb
      exact hc
    | some p =>
      rw [hp, Option.max_some_some, Option.some.injEq, UInt64.max_def] at hb
      subst hb
      split
      · exact hc
      · exact ih p hp

theorem max_backoff_ne (hp : p ≤ 300) :
    max p (U64.saturatingAdd 1000 300) ≠ max p (U64.saturatingAdd 1000 5) := by
  rw [show U64.saturatingAdd 1000 300 = 1300 by decide,
    show U64.saturatingAdd 1000 5 = 1005 by decide, UInt64.max_def, UInt64.max_def]
  grind

theorem backoffUntil_ne_of_overflow
    (hn : (trailingRun h).countP (isUncharged .storeDegraded) = 2 ^ 32)
    (hle : ∀ b, (foldHistory h {}).counters.backoffUntil = some b → b ≤ 300) :
    (decide (h ++ [storeDegradedRow 1000]) {} 0).backoffUntil ≠ max (decide h {} 0).backoffUntil
        (some (U64.saturatingAdd 1000
          (Budget.backoffSecs {} (trailingUnchargedClassCount h .storeDegraded)))) := by
  have hr : (foldHistory h {}).storeDegradedRun = 4294967295 := by
    rw [← UInt32.toNat_inj, foldHistory_storeDegradedRun, hn]
    rfl
  have hs : trailingUnchargedClassCount h .storeDegraded = 0 := by
    rw [trailingUnchargedClassCount_eq, hn]
    rfl
  have hc : Budget.backoffSecs {} 4294967295 = 300 := by decide
  have hb : Budget.backoffSecs {} 0 = 5 := by decide
  simp only [decide]
  rw [foldHistory_concat_storeDegraded h rfl, pace_backoffUntil, hr, hs]
  cases hx : (foldHistory h {}).counters.backoffUntil with
  | none => decide
  | some p =>
    rw [Option.max_some_some, Option.max_some_some, Ne, Option.some.injEq]
    exact max_backoff_ne (hle p hx)

/-- At `2 ^ 32` rows the saturating pacing counter and the wrapping scan part. -/
theorem decide_concat_storeDegraded_overflow :
    (decide (List.replicate (2 ^ 32) (storeDegradedRow 0) ++ [storeDegradedRow 1000]) {}
        0).backoffUntil ≠
      max (decide (List.replicate (2 ^ 32) (storeDegradedRow 0)) {} 0).backoffUntil
        (some (U64.saturatingAdd 1000 (Budget.backoffSecs {}
          (trailingUnchargedClassCount (List.replicate (2 ^ 32) (storeDegradedRow 0))
            .storeDegraded)))) :=
  backoffUntil_ne_of_overflow (countP_trailingRun_replicate rfl _) backoffUntil_replicate_le

end RioBuild.Retry
