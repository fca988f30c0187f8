import Mathlib.Logic.Function.Iterate
import Mathlib.Order.Nat

/-! The circuit breaker of the fetch path, `circuit.rs`: the sections of `check` and `record`
between which other threads may run, the calls as a whole, and the threads that make them.
Instants and durations are in nanoseconds; `duration_since` saturates.  The count of the trips,
which only the reports read, is left out. -/

namespace RioBuild.Circuit

structure Config where
  threshold : UInt32
  autoCloseAfter : Nat
  wallClockTrip : Nat

structure CircuitBreaker where
  consecutiveFailures : UInt32 := 0
  since : Option Nat := none
  probing : Bool := false
  lastSuccess : Option Nat := none

inductive Gate
  | refused
  | halfOpen
  | closed

namespace CircuitBreaker

variable (cfg : Config) (b : CircuitBreaker) (now : Nat)

/-- The first section of `check`, under the lock of `open`. -/
def gate : Gate × CircuitBreaker :=
  match b.since with
  | some since =>
    if now - since < cfg.autoCloseAfter then (.refused, b)
    else if b.probing then (.refused, b)
    else (.halfOpen, { b with probing := true })
  | none => (.closed, b)

def overdue : Bool := b.lastSuccess.any fun t => cfg.wallClockTrip < now - t

def trip : CircuitBreaker :=
  if b.since.isNone then { b with since := some now } else b

/-- The section of `record` under the lock of `open`. -/
def settle : Bool → CircuitBreaker
  | true => { b with probing := false, consecutiveFailures := 0, since := none }
  | false =>
    let n := b.consecutiveFailures + 1
    { b with
      probing := false, consecutiveFailures := n
      since := if cfg.threshold ≤ n ∨ b.since.isSome then some now else none }

def succeeded : CircuitBreaker := { b with lastSuccess := some now }

def check : Bool × CircuitBreaker :=
  match b.gate cfg now with
  | (.refused, b) => (false, b)
  | (.halfOpen, b) => (true, b)
  | (.closed, b) =>
    if b.overdue cfg now ∧ 0 < b.consecutiveFailures then (false, b.trip now) else (true, b)

def record (ok : Bool) : CircuitBreaker :=
  let b := b.settle cfg now ok
  if ok then b.succeeded now else b

end CircuitBreaker

/-- Where a thread stands: outside, before one of the sections of `check`, fetching, or before one
of the sections of `record`.  A fetch remembers whether it was let through half-open. -/
inductive Thread
  | idle
  | gating (now : Nat)
  | reading (now : Nat)
  | counting (now : Nat)
  | tripping (now : Nat)
  | fetching (probe : Bool)
  | settling (probe ok : Bool) (now : Nat)
  | succeeding (now : Nat)
  deriving DecidableEq

namespace Thread

def isProbe : Thread → Bool
  | fetching probe => probe
  | settling probe _ _ => probe
  | _ => false

def time : Thread → Nat
  | gating now | reading now | counting now | tripping now | settling _ _ now
  | succeeding now => now
  | idle | fetching _ => 0

def advance (cfg : Config) (b : CircuitBreaker) : Thread → CircuitBreaker × Thread
  | gating now => match b.gate cfg now with
    | (.refused, b) => (b, idle)
    | (.halfOpen, b) => (b, fetching true)
    | (.closed, b) => (b, reading now)
  | reading now => (b, if b.overdue cfg now then counting now else fetching false)
  | counting now => (b, if 0 < b.consecutiveFailures then tripping now else fetching false)
  | tripping now => (b.trip now, idle)
  | settling _ ok now => (b.settle cfg now ok, if ok then succeeding now else idle)
  | succeeding now => (b.succeeded now, idle)
  | idle => (b, idle)
  | fetching probe => (b, fetching probe)

end Thread

structure System where
  breaker : CircuitBreaker := {}
  threads : Nat → Thread := fun _ => .idle
  clock : Nat := 0

inductive Event
  | check (thread now : Nat)
  | record (thread : Nat) (ok : Bool) (now : Nat)
  | advance (thread : Nat)

namespace System

def set (s : System) (i : Nat) (t : Thread) : System :=
  { s with threads := Function.update s.threads i t }

/-- A call starts when the thread is outside, or has a fetch to record, and reads the clock, which
does not go back. -/
def step (cfg : Config) (s : System) : Event → System
  | .check i now =>
    if s.threads i = .idle ∧ s.clock ≤ now then { s.set i (.gating now) with clock := now } else s
  | .record i ok now => match s.threads i with
    | .fetching probe =>
      if s.clock ≤ now then { s.set i (.settling probe ok now) with clock := now } else s
    | _ => s
  | .advance i =>
    let (b, t) := (s.threads i).advance cfg s.breaker
    { s.set i t with breaker := b }

def run (cfg : Config) (events : List Event) : System := events.foldl (step cfg) {}

/-- A record whose fetch was let through closed takes its section while the flag is set. -/
def Leaks (s : System) : Event → Bool
  | .advance i => match s.threads i with
    | .settling false _ _ => s.breaker.probing
    | _ => false
  | _ => false

def Clean (cfg : Config) (s : System) : List Event → Bool
  | [] => true
  | e :: events => !s.Leaks e && Clean cfg (s.step cfg e) events

end System

theorem CircuitBreaker.gate_cases (cfg : Config) (b : CircuitBreaker) (now : Nat) :
    (∃ since, b.since = some since ∧ (now - since < cfg.autoCloseAfter ∨ b.probing = true) ∧
      b.gate cfg now = (.refused, b)) ∨
    (∃ since, b.since = some since ∧ cfg.autoCloseAfter ≤ now - since ∧ b.probing = false ∧
      b.gate cfg now = (.halfOpen, { b with probing := true })) ∨
    b.since = none ∧ b.gate cfg now = (.closed, b) := by
  unfold gate
  cases b.since with
  | none => exact .inr (.inr ⟨rfl, rfl⟩)
  | some since =>
    dsimp only
    split_ifs with ho hp
    · exact .inl ⟨since, rfl, .inl ho, rfl⟩
    · exact .inl ⟨since, rfl, .inr hp, rfl⟩
    · exact .inr (.inl ⟨since, rfl, Nat.le_of_not_lt ho, by simpa using hp, rfl⟩)

namespace Thread

variable (cfg : Config) (b : CircuitBreaker) (t : Thread)

theorem advance_spec : (t.advance cfg b).2.time ≤ t.time ∧
    (∀ u ∈ (t.advance cfg b).1.since, u ∈ b.since ∨ u = t.time) ∧
    ((t.advance cfg b).1.probing = b.probing ∧ (t.advance cfg b).2.isProbe = t.isProbe ∨
      b.probing = false ∧ (t.advance cfg b).1.probing = true ∧ (t.advance cfg b).2.isProbe ∨
      (∃ ok now, t = settling t.isProbe ok now) ∧ (t.advance cfg b).1.probing = false ∧
        (t.advance cfg b).2.isProbe = false) := by
  cases t with
  | gating now =>
    rcases b.gate_cases cfg now with ⟨_, _, _, h⟩ | ⟨_, _, _, hp, h⟩ | ⟨_, h⟩
    · simp +contextual [advance, h, time, isProbe]
    · simp +contextual [advance, h, time, isProbe, hp]
    · simp +contextual [advance, h, time, isProbe]
  | reading now | counting now =>
    simp only [advance]
    split <;> simp +contextual [time, isProbe]
  | tripping now =>
    simp only [advance, CircuitBreaker.trip]
    split <;> simp +contextual [time, isProbe]
  | settling probe ok now =>
    cases ok with
    | true => simp [advance, CircuitBreaker.settle, time, isProbe]
    | false =>
      simp only [advance, CircuitBreaker.settle]
      split <;> simp +contextual [time, isProbe]
  | succeeding now | idle | fetching probe =>
    simp +contextual [advance, CircuitBreaker.succeeded, time, isProbe]

theorem check_alone (now : Nat) :
    (fun p : CircuitBreaker × Thread => p.2.advance cfg p.1)^[4] (b, gating now) =
      ((b.check cfg now).2, if (b.check cfg now).1 then fetching b.since.isSome else idle) := by
  rcases b.gate_cases cfg now with ⟨_, _, _, h⟩ | ⟨_, hs, _, _, h⟩ | ⟨hs, h⟩
  · simp [advance, CircuitBreaker.check, h]
  · simp [advance, CircuitBreaker.check, h, hs]
  · by_cases hd : b.overdue cfg now <;> by_cases hp : 0 < b.consecutiveFailures <;>
      simp [advance, CircuitBreaker.check, h, hs, hd, hp]

theorem record_alone (now : Nat) (probe ok : Bool) :
    (fun p : CircuitBreaker × Thread => p.2.advance cfg p.1)^[2] (b, settling probe ok now) =
      (b.record cfg now ok, idle) := by
  cases ok <;> simp [advance, CircuitBreaker.record]

end Thread

namespace System

variable {cfg : Config} {s : System}

/-- The flag is that of an outstanding probe, and no instant is ahead of the clock. -/
structure Inv (s : System) : Prop where
  probing : s.breaker.probing = true → ∃ i, (s.threads i).isProbe
  since : ∀ t ∈ s.breaker.since, t ≤ s.clock
  time : ∀ i, (s.threads i).time ≤ s.clock

theorem isProbe_set (h : t.isProbe = (s.threads i).isProbe) (j : Nat) :
    ((s.set i t).threads j).isProbe = (s.threads j).isProbe := by
  simp only [set, Function.update_apply]
  split_ifs with hj
  · rw [hj, h]
  · rfl

theorem time_set (h : ∀ i, (s.threads i).time ≤ s.clock) (hc : s.clock ≤ c)
    (ht : t.time ≤ c) (j : Nat) : ((s.set i t).threads j).time ≤ c := by
  simp only [set, Function.update_apply]
  split_ifs
  · exact ht
  · exact (h j).trans hc

theorem step_cases (cfg : Config) (s : System) (e : Event) : s.step cfg e = s ∨
    (∃ i t now, s.clock ≤ now ∧ t.isProbe = (s.threads i).isProbe ∧ t.time = now ∧
      s.step cfg e = { s.set i t with clock := now }) ∨
    ∃ i, e = .advance i := by
  cases e with
  | check i now =>
    rw [step]
    split_ifs with hs
    · exact .inr (.inl ⟨i, .gating now, now, hs.2, by rw [hs.1]; rfl, rfl, rfl⟩)
    · exact .inl rfl
  | record i ok now =>
    rw [step]
    split
    · rename_i probe hf
      split_ifs with hn
      · exact .inr (.inl ⟨i, .settling probe ok now, now, hn, by rw [hf]; rfl, rfl, rfl⟩)
      · exact .inl rfl
    · exact .inl rfl
  | advance i => exact .inr (.inr ⟨i, rfl⟩)

namespace Inv

theorem start (h : Inv s) (hn : s.clock ≤ now) (hp : t.isProbe = (s.threads i).isProbe)
    (ht : t.time = now) : Inv { s.set i t with clock := now } where
  probing := fun hs => (h.probing hs).imp fun j hj => (isProbe_set hp j).trans hj
  since := fun u hu => (h.since u hu).trans hn
  time := time_set h.time hn ht.le

theorem advance (h : Inv s) (i : Nat) : Inv (s.step cfg (.advance i)) where
  probing := by
    intro hs
    rcases ((s.threads i).advance_spec cfg s.breaker).2.2 with
      ⟨hk, hp⟩ | ⟨-, -, hp⟩ | ⟨-, hc, -⟩
    · exact (h.probing (hk ▸ hs)).imp fun j hj => (isProbe_set hp j).trans hj
    · exact ⟨i, by simpa [step, set] using hp⟩
    · exact absurd (hc.symm.trans hs) (by simp)
  since := by
    intro u hu
    rcases ((s.threads i).advance_spec cfg s.breaker).2.1 u hu with ho | rfl
    · exact h.since u ho
    · exact h.time i
  time := time_set h.time le_rfl (((s.threads i).advance_spec cfg _).1.trans (h.time i))

theorem step (h : Inv s) (e : Event) : Inv (s.step cfg e) := by
  rcases step_cases cfg s e with hs | ⟨i, t, now, hn, hp, ht, hst⟩ | ⟨i, rfl⟩
  · rwa [hs]
  · rw [hst]
    exact h.start hn hp ht
  · exact h.advance i

end Inv

theorem inv_run (cfg : Config) (events : List Event) : Inv (run cfg events) := by
  have hs : Inv {} := ⟨by simp, by simp, fun _ => Nat.zero_le _⟩
  unfold run
  generalize ({} : System) = s at hs
  induction events generalizing s with
  | nil => exact hs
  | cons e events ih => exact ih _ (hs.step e)

structure Alone (s : System) : Prop where
  flagged : ∀ i, (s.threads i).isProbe → s.breaker.probing = true
  unique : ∀ i j, (s.threads i).isProbe → (s.threads j).isProbe → i = j

theorem Alone.set (h : Alone s) (hp : t.isProbe = (s.threads i).isProbe)
    (hb : b.probing = s.breaker.probing) : Alone { s.set i t with breaker := b, clock := c } where
  flagged := fun j hj => hb.trans (h.flagged j ((isProbe_set hp j).symm.trans hj))
  unique := fun j k hj hk => h.unique j k ((isProbe_set hp j).symm.trans hj)
    ((isProbe_set hp k).symm.trans hk)

theorem Alone.advance (h : Alone s) (hc : s.Leaks (.advance i) = false) :
    Alone (s.step cfg (.advance i)) := by
  rcases ((s.threads i).advance_spec cfg s.breaker).2.2 with
    ⟨hke, hp⟩ | ⟨hf, hse, -⟩ | ⟨⟨ok, now, hs⟩, -, hov⟩
  · exact h.set hp hke
  · -- nobody holds the flag, so the check that takes it is the only probe
    have ho : ∀ j, ((s.step cfg (.advance i)).threads j).isProbe → j = i := by
      intro j hj
      by_contra hji
      simp only [step, System.set, Function.update_apply, if_neg hji] at hj
      exact absurd (h.flagged j hj) (by simp [hf])
    exact ⟨fun _ _ => hse, fun j k hj hk => (ho j hj).trans (ho k hk).symm⟩
  · -- the record that clears the flag is that of the only probe
    have hn : ∀ j, ((s.step cfg (.advance i)).threads j).isProbe = false := by
      intro j
      simp only [step, System.set, Function.update_apply]
      split_ifs with hji
      · exact hov
      · by_contra hj
        rw [Bool.not_eq_false] at hj
        cases hp : (s.threads i).isProbe with
        | true => exact hji (h.unique j i hj hp)
        | false =>
          rw [hp] at hs
          simp only [Leaks, hs] at hc
          exact absurd (h.flagged j hj) (by simp [hc])
    exact ⟨by simp [hn], by simp [hn]⟩

theorem Alone.step (h : Alone s) (hc : s.Leaks e = false) : Alone (s.step cfg e) := by
  rcases step_cases cfg s e with hs | ⟨i, t, now, -, hp, -, hst⟩ | ⟨i, rfl⟩
  · rwa [hs]
  · rw [hst]
    exact h.set hp rfl
  · exact h.advance hc

/-- Two fetches let through half-open are outstanding at once only after a record of a fetch let
through closed has cleared the flag of an outstanding probe. -/
theorem at_most_one_probe (cfg : Config) (events : List Event) (hcle : Clean cfg {} events = true) :
    ∀ i j, ((run cfg events).threads i).isProbe → ((run cfg events).threads j).isProbe → i = j := by
  suffices h : Alone (run cfg events) from h.unique
  have hs : Alone {} := ⟨by simp [Thread.isProbe], by simp [Thread.isProbe]⟩
  unfold run
  generalize ({} : System) = s at hs hcle
  induction events generalizing s with
  | nil => exact hs
  | cons e events ih =>
    simp only [Clean, Bool.and_eq_true, Bool.not_eq_true'] at hcle
    exact ih _ (hs.step hcle.1) hcle.2

/-- A fetch let through closed fails while the next one is a probe: a second probe follows. -/
def secondProbe : List Event :=
  [.check 0 0, .advance 0, .advance 0, .check 1 0, .advance 1, .advance 1, .record 1 false 0,
    .advance 1, .check 2 1, .advance 2, .record 0 false 1, .advance 0, .check 3 2, .advance 3]

theorem secondProbe_outstanding : (run ⟨1, 1, 100⟩ secondProbe).threads 2 = .fetching true ∧
      (run ⟨1, 1, 100⟩ secondProbe).threads 3 = .fetching true := by
  decide +kernel

theorem at_most_one_probe_first : ((run ⟨1, 1, 100⟩ (secondProbe.take 10)).threads 2).isProbe ∧
      ¬ ((run ⟨1, 1, 100⟩ (secondProbe.take 10)).threads 3).isProbe :=
  ⟨by decide +kernel, fun h => absurd (at_most_one_probe ⟨1, 1, 100⟩ (secondProbe.take 10)
    (by decide +kernel) 2 3 (by decide +kernel) h) (by decide)⟩

end System

namespace CircuitBreaker

variable {cfg : Config} {b : CircuitBreaker}

inductive Call
  | check (now : Nat)
  | record (ok : Bool) (now : Nat)

/-- The breaker after calls none of which overlap, the last one first. -/
def after (cfg : Config) : List Call → CircuitBreaker
  | [] => {}
  | .check now :: past => ((after cfg past).check cfg now).2
  | .record ok now :: past => (after cfg past).record cfg now ok

def checkCall (i now : Nat) : List Event := .check i now :: .replicate 4 (.advance i)

def recordCall (i : Nat) (ok : Bool) (now : Nat) : List Event :=
  .record i ok now :: .replicate 2 (.advance i)

/-- Calls, the last one first, each over before the next one starts; the fetches may overlap. -/
inductive Serial (cfg : Config) : List Call → System → Prop
  | init : Serial cfg [] {}
  | check : Serial cfg past s → s.threads i = .idle → s.clock ≤ now →
    Serial cfg (.check now :: past) ((checkCall i now).foldl (System.step cfg) s)
  | record : Serial cfg past s → s.threads i = .fetching probe → s.clock ≤ now →
    Serial cfg (.record ok now :: past) ((recordCall i ok now).foldl (System.step cfg) s)

theorem foldl_checkCall (hi : s.threads i = .idle) (hn : s.clock ≤ now) :
    ((checkCall i now).foldl (System.step cfg) s).breaker = (s.breaker.check cfg now).2 ∧
      ((checkCall i now).foldl (System.step cfg) s).threads i =
        if (s.breaker.check cfg now).1 then .fetching s.breaker.since.isSome else .idle := by
  have ha := Thread.check_alone cfg s.breaker now
  simpa [checkCall, System.step, hi, hn, System.set] using
    And.intro (congrArg Prod.fst ha) (congrArg Prod.snd ha)

/-- The sections of the threads refine the calls as a whole, however the fetches overlap: the
breaker is the same, and so is what the next check answers. -/
theorem serial_refines (h : Serial cfg past s) : s.breaker = after cfg past ∧
    ∀ i now, s.threads i = .idle → s.clock ≤ now →
      ((checkCall i now).foldl (System.step cfg) s).threads i =
        if ((after cfg past).check cfg now).1 then .fetching (after cfg past).since.isSome
        else .idle := by
  have hb : s.breaker = after cfg past := by
    induction h with
    | init => rfl
    | check _ hi hn ih => rw [(foldl_checkCall hi hn).1, ih, after]
    | record _ hi hn ih =>
      simpa [recordCall, System.step, hi, hn, System.set, after, ih] using
        congrArg Prod.fst (Thread.record_alone cfg _ _ _ _)
  exact ⟨hb, fun i now hi hn => hb ▸ (foldl_checkCall hi hn).2⟩

/-- Two fetches overlap, the second one fails, and a check long after the success of the first one
trips the breaker. -/
def tripped : System :=
  [checkCall 0 0, checkCall 1 1, recordCall 0 true 2, recordCall 1 false 3, checkCall 0 20].foldl
    (fun s call => call.foldl (System.step ⟨5, 100, 9⟩) s) {}

theorem serial_tripped : Serial ⟨5, 100, 9⟩
    [.check 20, .record false 3, .record true 2, .check 1, .check 0] tripped := by
  refine .check (i := 0) (.record (i := 1) (.record (i := 0) (.check (i := 1)
    (.check (i := 0) .init rfl ?_) rfl ?_) rfl ?_) rfl ?_) rfl ?_
  all_goals decide +kernel

theorem serial_refines_tripped : tripped.breaker.since = some 20 ∧
    ((checkCall 1 21).foldl (System.step ⟨5, 100, 9⟩) tripped).threads 1 = .idle := by
  obtain ⟨hb, ht⟩ := serial_refines serial_tripped
  exact ⟨congrArg since hb, ht 1 21 (by decide +kernel) (by decide +kernel)⟩

def failures : List Call → Nat
  | [] => 0
  | .check _ :: past => failures past
  | .record ok _ :: past => if ok then 0 else failures past + 1

def successAt : List Call → Option Nat
  | [] => none
  | .check _ :: past => successAt past
  | .record ok now :: past => if ok then some now else successAt past

def Cause (cfg : Config) (past : List Call) : Call → Prop
  | .record ok _ => ok = false ∧ cfg.threshold.toNat ≤ failures past + 1
  | .check now => 0 < failures past ∧ ∃ t ∈ successAt past, cfg.wallClockTrip < now - t

theorem check_cases (cfg : Config) (b : CircuitBreaker) (now : Nat) :
    (∃ since, b.since = some since ∧ (now - since < cfg.autoCloseAfter ∨ b.probing = true) ∧
      b.check cfg now = (false, b)) ∨
    (∃ since, b.since = some since ∧ b.check cfg now = (true, { b with probing := true })) ∨
    b.since = none ∧ (b.check cfg now = (true, b) ∨
      (b.overdue cfg now = true ∧ 0 < b.consecutiveFailures) ∧
        b.check cfg now = (false, { b with since := some now })) := by
  unfold check
  rcases b.gate_cases cfg now with ⟨since, hs, hw, hg⟩ | ⟨since, hs, _, _, hg⟩ | ⟨hs, hg⟩
  · exact .inl ⟨since, hs, hw, by rw [hg]⟩
  · exact .inr (.inl ⟨since, hs, by rw [hg]⟩)
  · refine .inr (.inr ⟨hs, ?_⟩)
    rw [hg]
    dsimp only
    split_ifs with ht
    · exact .inr ⟨ht, by simp [trip, hs]⟩
    · exact .inl rfl

theorem after_eq (cfg : Config) (past : List Call) :
    (after cfg past).consecutiveFailures = UInt32.ofNat (failures past) ∧
      (after cfg past).lastSuccess = successAt past := by
  induction past with
  | nil => exact ⟨rfl, rfl⟩
  | cons c past ih =>
    cases c with
    | check now =>
      rcases check_cases cfg (after cfg past) now with
        ⟨_, _, _, h⟩ | ⟨_, _, h⟩ | ⟨_, h | ⟨_, h⟩⟩
      all_goals simpa [after, h, failures, successAt] using ih
    | record ok now =>
      cases ok with
      | true => exact ⟨rfl, rfl⟩
      | false => simpa [after, record, settle, failures, successAt] using ih

theorem toNat_ofNat_le : (UInt32.ofNat n).toNat ≤ n := by
  exact Nat.mod_le _ _

theorem opens_for_cause (hc : (after cfg past).since = none)
    (ho : (after cfg (c :: past)).since ≠ none) : Cause cfg past c := by
  obtain ⟨hf, hsu⟩ := after_eq cfg past
  cases c with
  | check now =>
    rcases check_cases cfg (after cfg past) now with
      ⟨_, hs, _⟩ | ⟨_, hs, _⟩ | ⟨_, h | ⟨⟨hd, hp⟩, _⟩⟩
    · cases hc.symm.trans hs
    · cases hc.symm.trans hs
    · exact absurd (by simpa [after, h] using hc) ho
    · rw [overdue, hsu, Option.any_eq_true] at hd
      obtain ⟨success, hla, hl⟩ := hd
      rw [hf] at hp
      exact ⟨hp.trans_le (toNat_ofNat_le), success, hla, by simpa using hl⟩
  | record ok now =>
    cases ok with
    | true => exact absurd rfl ho
    | false =>
      have hm : cfg.threshold ≤ (after cfg past).consecutiveFailures + 1 := by
        by_contra hfe
        simp [after, record, settle, hc, hfe] at ho
      rw [hf, ← UInt32.ofNat_one, ← UInt32.ofNat_add] at hm
      exact ⟨rfl, hm.trans (toNat_ofNat_le)⟩

theorem check_later (hp : b.probing = false) (hs : b.since = some t)
    (hl : t + cfg.autoCloseAfter ≤ later) : (b.check cfg later).1 = true := by
  rcases check_cases cfg b later with ⟨_, hs', hw, _⟩ | ⟨_, _, h⟩ | ⟨hn, _⟩
  · cases hs.symm.trans hs'
    rw [hp] at hw
    simp only [Bool.false_eq_true, or_false] at hw
    omega
  · rw [h]
  · cases hs.symm.trans hn

/-- When nobody calls or fetches, a check is let through unless the breaker has just opened or the
check itself trips it, and one interval after a refusal in any case.  Between calls that do not
overlap the breaker opens at the threshold or at a wall-clock trip after a failure. -/
theorem never_wedges (cfg : Config) :
    (∀ events now, (∀ i, (System.run cfg events).threads i = .idle) →
      (System.run cfg events).clock ≤ now → let b := (System.run cfg events).breaker
        ((∀ since ∈ b.since, cfg.autoCloseAfter ≤ now - since) → (b.check cfg now).1 = true ∨
            b.since = none ∧ b.overdue cfg now = true ∧ (b.check cfg now).2.since = some now) ∧
        ((b.check cfg now).1 = false → ∀ later, now + cfg.autoCloseAfter ≤ later →
          ((b.check cfg now).2.check cfg later).1 = true)) ∧
    ∀ c past, (after cfg past).since = none → (after cfg (c :: past)).since ≠ none →
      Cause cfg past c := by
  refine ⟨fun events now hid hnow => ?_, fun c past => opens_for_cause⟩
  intro b
  have hiv := System.inv_run cfg events
  have hp : b.probing = false := by
    by_contra h
    obtain ⟨i, hi⟩ := hiv.probing (by simpa using h)
    simp [hid i, Thread.isProbe] at hi
  rcases check_cases cfg b now with
    ⟨since, hs, hw, h⟩ | ⟨_, _, h⟩ | ⟨hn, h | ⟨⟨hd, _⟩, h⟩⟩
  · refine ⟨fun hlo => ?_, fun _ later hl => ?_⟩
    · have := hlo since hs
      simp only [hp, Bool.false_eq_true, or_false] at hw
      omega
    · rw [h]
      have := hiv.since since hs
      exact check_later hp hs (by omega)
  · exact ⟨fun _ => .inl (by rw [h]), fun hr => by simp [h] at hr⟩
  · exact ⟨fun _ => .inl (by rw [h]), fun hr => by simp [h] at hr⟩
  · rw [h]
    exact ⟨fun _ => .inr ⟨hn, hd, rfl⟩, fun _ later hl => check_later hp rfl hl⟩

end CircuitBreaker

end RioBuild.Circuit
