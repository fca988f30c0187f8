import Mathlib.Algebra.GroupWithZero.Nat
import Mathlib.Data.List.Induction

namespace RioBuild.Lease

open List

inductive Decision
  | renew
  | steal
  | standby
  deriving DecidableEq

inductive HolderKind
  | empty
  | us
  | other
  deriving DecidableEq

inductive ObservedUpdate
  | keep
  | clear
  | startObserving
  deriving DecidableEq

/-- Instants and durations are in nanoseconds. -/
structure Observed where
  holder : String
  renewTime : Option String
  at_ : Nat
  deriving DecidableEq

structure Read where
  holder : Option String
  renewTime : Option String
  sentAt : Nat
  confirmedAt : Nat
  deriving DecidableEq

def decidePure (holder : HolderKind) (matchedObservationAgeMs : Option Nat) (stealAfterMs : Nat) :
    Decision × ObservedUpdate :=
  match holder with
  | .empty => (.steal, .clear)
  | .us => (.renew, .keep)
  | .other => match matchedObservationAgeMs with
    | some age => if age > stealAfterMs then (.steal, .keep) else (.standby, .keep)
    | none => (.standby, .startObserving)

def asMillis (d : Nat) : Nat := d / 10 ^ 6 % 2 ^ 64

def holderKind (ourId : String) (holder : Option String) : HolderKind :=
  match holder with
  | none => .empty
  | some s => if s = "" then .empty else if s = ourId then .us else .other

def Observed.shows (o : Observed) (r : Read) : Bool :=
  r.holder = some o.holder ∧ o.renewTime = r.renewTime

def Read.record (r : Read) : Observed := ⟨r.holder.getD "", r.renewTime, r.confirmedAt⟩

def ObservedUpdate.apply (observed : Option Observed) (r : Read) :
    ObservedUpdate → Option Observed
  | .keep => observed
  | .clear => none
  | .startObserving => some r.record

def decide (ourId : String) (stealAfter : Nat) (observed : Option Observed) (r : Read) :
    Decision × Option Observed :=
  let age := (observed.filter (·.shows r)).map fun o => asMillis (r.sentAt - o.at_)
  let d := decidePure (holderKind ourId r.holder) age (asMillis stealAfter)
  (d.1, d.2.apply observed r)

def observe (ourId : String) (stealAfter : Nat) (reads : List Read) : Option Observed :=
  reads.foldl (fun observed r => (decide ourId stealAfter observed r).2) none

section

variable (us : String) (span : Nat)

def Starts (before : List Read) (r : Read) : Prop :=
  holderKind us r.holder = .other ∧ (observe us span before).any (·.shows r) = false

structure Since (before : List Read) (x : Read) (later : List Read) : Prop where
  starts : Starts us span before x
  quiet : ∀ l y l', later = l ++ y :: l' → ¬Starts us span (before ++ x :: l) y
  held : ∀ y ∈ later, holderKind us y.holder ≠ .empty

variable {us span} {r x : Read}

theorem decidePure_steal : (decidePure kind age t).1 = .steal ↔
    kind = .empty ∨ kind = .other ∧ ∃ a, age = some a ∧ t < a := by
  cases kind with
  | empty | us => simp [decidePure]
  | other =>
    cases age with
    | none => simp [decidePure]
    | some a => by_cases ha : t < a <;> simp [decidePure, ha]

theorem decidePure_update :
    (decidePure .other age t).2 = if age.isSome then .keep else .startObserving := by
  cases age with
  | none => rfl
  | some a => by_cases ha : t < a <;> simp [decidePure, ha]

theorem observe_concat :
    observe us span (reads ++ [r]) = (decide us span (observe us span reads) r).2 := by
  rw [observe, foldl_append]
  rfl

theorem observe_other (hr : holderKind us r.holder = .other) : observe us span (reads ++ [r]) =
    if (observe us span reads).any (·.shows r) then observe us span reads
    else some r.record := by
  rw [observe_concat, decide, hr]
  rw [decidePure_update, Option.isSome_map, Option.isSome_filter]
  split <;> rfl

theorem observe_starts (h : Starts us span reads r) :
    observe us span (reads ++ [r]) = some r.record := by
  rw [observe_other h.1, if_neg (by simp [h.2])]

theorem observe_keeps (h : ¬Starts us span reads r) (hr : holderKind us r.holder ≠ .empty) :
    observe us span (reads ++ [r]) = observe us span reads := by
  cases hk : holderKind us r.holder with
  | empty => exact absurd hk hr
  | us =>
    rw [observe_concat, decide, hk]
    rfl
  | other =>
    rw [observe_other hk, if_pos (not_not.mp fun hn => h ⟨hk, (Bool.not_eq_true _).mp hn⟩)]

theorem Since.left (h : Since us span before x (l ++ l')) : Since us span before x l where
  starts := h.starts
  quiet l₁ y l₂ heq := h.quiet l₁ y (l₂ ++ l') (by simp [heq])
  held y hy := h.held y (mem_append_left _ hy)

theorem observe_since (h : Since us span before x later) :
    observe us span (before ++ x :: later) = some x.record := by
  induction later using reverseRecOn with
  | nil => exact observe_starts h.starts
  | append_singleton later y ih =>
    rw [← cons_append, ← append_assoc, observe_keeps (h.quiet later y [] rfl) (h.held y (by simp)),
      ih h.left]

theorem exists_since (h : observe us span reads = some o) : ∃ before x later,
    reads = before ++ x :: later ∧ Since us span before x later ∧ o = x.record := by
  induction reads using reverseRecOn with
  | nil => cases h
  | append_singleton reads r ih =>
    by_cases hr : Starts us span reads r
    · rw [observe_starts hr] at h
      cases h
      exact ⟨reads, r, [], rfl, ⟨hr, by simp, by simp⟩, rfl⟩
    · have hh : holderKind us r.holder ≠ .empty := fun he => by
        rw [observe_concat, decide, he] at h
        cases h
      rw [observe_keeps hr hh] at h
      obtain ⟨before, x, later, rfl, hs, rfl⟩ := ih h
      refine ⟨before, x, later ++ [r], by simp, ⟨hs.starts, fun l y l' heq => ?_, ?_⟩, rfl⟩
      · -- the last read does not start a record either
        rcases eq_nil_or_concat l' with rfl | ⟨l', z, rfl⟩
        · obtain ⟨rfl, hl⟩ := append_inj' heq rfl
          rwa [← (cons.inj hl).1]
        · rw [← concat_cons, concat_eq_append, ← append_assoc] at heq
          exact hs.quiet l y l' (append_inj' heq rfl).1
      · rw [forall_mem_append, forall_mem_singleton]
        exact ⟨hs.held, hh⟩

theorem shows_record_iff (hx : holderKind us x.holder = .other) :
    x.record.shows r ↔ x.holder = r.holder ∧ x.renewTime = r.renewTime := by
  cases hs : x.holder with
  | none => simp [hs, holderKind] at hx
  | some s =>
    rw [Observed.shows, Read.record, hs, decide_eq_true_eq]
    exact and_congr_left' eq_comm

/-- Another replica's lease is stolen when the record kept shows what the read shows and is older
than the threshold, in milliseconds as the code has them. -/
theorem decide_steal_iff (us : String) (span : Nat) :
    (∀ reads r, (decide us span (observe us span reads) r).1 = .steal ↔
      holderKind us r.holder = .empty ∨ holderKind us r.holder = .other ∧
        ∃ before x later, reads = before ++ x :: later ∧ Since us span before x later ∧
          (x.holder = r.holder ∧ x.renewTime = r.renewTime) ∧
          asMillis span < asMillis (r.sentAt - x.confirmedAt)) ∧
    ∀ before x later, Since us span before x later → ∀ y ∈ later, holderKind us y.holder = .other →
        x.holder = y.holder ∧ x.renewTime = y.renewTime := by
  refine ⟨fun reads r => ?_, fun before x later h y hy hot => ?_⟩
  · refine decidePure_steal.trans (or_congr_right (and_congr_right fun _ => ⟨?_, ?_⟩))
    · rintro ⟨a, ha, hag⟩
      obtain ⟨o, ho, rfl⟩ := Option.map_eq_some_iff.mp ha
      obtain ⟨ho, hsh⟩ := Option.filter_eq_some_iff.mp ho
      obtain ⟨before, x, later, heq, hs, rfl⟩ := exists_since ho
      exact ⟨before, x, later, heq, hs, (shows_record_iff hs.starts.1).mp hsh, hag⟩
    · rintro ⟨before, x, later, rfl, hs, hsa, hag⟩
      refine ⟨_, ?_, hag⟩
      rw [observe_since hs, Option.filter_some, if_pos ((shows_record_iff hs.starts.1).mpr hsa)]
      rfl
  · obtain ⟨l, l', rfl⟩ := append_of_mem hy
    by_contra hn
    refine h.quiet l y l' rfl ⟨hot, ?_⟩
    rw [observe_since h.left]
    exact (Bool.not_eq_true _).mp (mt (shows_record_iff h.starts.1).mp hn)

end

/-- A threshold of `2 ^ 64` milliseconds is none. -/
theorem decide_steals_early : ∃ first second : Read,
    (decide "us" (2 ^ 64 * 10 ^ 6) (observe "us" (2 ^ 64 * 10 ^ 6) [first]) second).1 = .steal ∧
      first.holder = some "them" ∧ second.holder = some "them" ∧
      second.sentAt - first.confirmedAt = 10 ^ 6 :=
  ⟨⟨some "them", none, 0, 0⟩, ⟨some "them", none, 10 ^ 6, 10 ^ 6⟩, by decide +kernel, rfl, rfl, rfl⟩

end RioBuild.Lease
