import RioBuild.Lib.Maps

/-! The ledger of the claims that a store replica has sent and that are not settled:
`ResumeLedger` of `client.rs`.  The wedge latch, which only logs, is left out.  Instants are in
nanoseconds. -/

namespace RioBuild.Resume

open Lib List

abbrev Uuid := BitVec 128

/-- `Uuid::new_v4` never repeats, so a nonce is the number of the nonces made before it. -/
abbrev Nonce := Nat

inductive SlotStanding where
  | charged
  | credentialOnly
  deriving DecidableEq, Repr

structure ResumeEntry where
  jobId : Uuid
  drvHash : String
  tenantHint : Option Uuid
  origin : String
  nonce : Nonce
  standing : SlotStanding
  deriving DecidableEq, Repr

def ResumeEntry.key (e : ResumeEntry) : Uuid × Nonce := (e.jobId, e.nonce)

def resumeLedgerCap : Nat := 32
def resumePresentationsPerPass : Nat := 4
def resolvedAnswerRemintCooldown : Nat := 60 * 10 ^ 9

/-- The part of `WorkAssignment` that a claim reads. -/
structure WorkAssignment where
  jobId : String
  execId : String
  drvPath : String
  deriving DecidableEq, Repr

/-- `PullAnswer`, without the `retry_after` that only paces the next pass. -/
inductive PullAnswer where
  | deliver (assignment : WorkAssignment)
  | gone
  | notYetReady
  | shutdown
  | unanswered
  | rejectedDisproving
  | rejectedAuth
  deriving DecidableEq, Repr

inductive PresentationLane where
  | fresh
  | resumeClaiming
  | probe
  deriving DecidableEq, Repr

inductive StandingEffect where
  | resolve
  | resolveCooled
  | refund
  | recharge
  | keep
  deriving DecidableEq, Repr

def standingEffect : PresentationLane → PullAnswer → StandingEffect
  | .fresh, .deliver _ => .resolve
  | .resumeClaiming, .deliver _ => .resolve
  | .probe, .deliver _ => .recharge
  | _, .gone => .resolveCooled
  | _, .notYetReady => .refund
  | .fresh, .unanswered => .recharge
  | .resumeClaiming, .unanswered => .recharge
  | .probe, .unanswered => .keep
  | _, .rejectedDisproving => .resolveCooled
  | .fresh, .rejectedAuth => .resolveCooled
  | .resumeClaiming, .rejectedAuth => .keep
  | .probe, .rejectedAuth => .keep
  | _, .shutdown => .keep

def StandingEffect.Resolves (effect : StandingEffect) : Prop :=
  effect = .resolve ∨ effect = .resolveCooled

instance (effect : StandingEffect) : Decidable effect.Resolves :=
  inferInstanceAs (Decidable (_ ∨ _))

inductive Ends (lane : PresentationLane) (answer : PullAnswer) : Prop
  | delivered (assignment : WorkAssignment) (hlane : lane ≠ .probe)
      (h : answer = .deliver assignment)
  | disproved (h : answer = .gone ∨ answer = .rejectedDisproving)
  | unauthenticated (hlane : lane = .fresh) (h : answer = .rejectedAuth)

theorem ends_of_resolves (h : (standingEffect lane answer).Resolves) : Ends lane answer := by
  cases answer with
  | deliver assignment =>
    refine .delivered assignment ?_ rfl
    rintro rfl
    rcases h with h | h <;> cases h
  | gone => exact .disproved (.inl rfl)
  | rejectedDisproving => exact .disproved (.inr rfl)
  | rejectedAuth =>
    cases lane with
    | fresh => exact .unauthenticated rfl rfl
    | resumeClaiming | probe => rcases h with h | h <;> cases h
  | notYetReady | unanswered | shutdown => cases lane <;> rcases h with h | h <;> cases h

inductive MintHeadroom where
  | available
  | budgetPinned (charged : Nat)
  | atCap (charged entries : Nat)
  deriving DecidableEq, Repr

structure ResumeLedger where
  entries : List ResumeEntry := []
  remintCooldowns : Map Uuid Nat := ∅

namespace ResumeLedger

def resolve (l : ResumeLedger) (jobId : Uuid) : ResumeLedger :=
  { l with entries := l.entries.filter fun e => e.jobId ≠ jobId }

def cool (l : ResumeLedger) (now : Nat) (jobId : Uuid) : ResumeLedger :=
  { l with
    remintCooldowns := l.remintCooldowns.insert jobId (now + resolvedAnswerRemintCooldown) }

/-- The nonce is the one that `new_v4` returns. -/
def beginFreshClaim (l : ResumeLedger) (jobId : Uuid) (fill : Nonce → ResumeEntry)
    (nonce : Nonce) : Option ResumeLedger :=
  if l.entries.any fun e => e.jobId = jobId then none
  else if resumeLedgerCap ≤ l.entries.length then none
  else some { l with entries := l.entries ++ [{ fill nonce with standing := .charged }] }

/-- `iter_mut().find(..)`: the first entry of the job gets the standing. -/
def setStanding (l : ResumeLedger) (jobId : Uuid) (standing : SlotStanding) : ResumeLedger :=
  { l with
    entries := l.entries.replaceF fun e =>
      if e.jobId = jobId then some { e with standing := standing } else none }

def noteAnsweredNotReady (l : ResumeLedger) (jobId : Uuid) : ResumeLedger :=
  l.setStanding jobId .credentialOnly

def noteUnansweredPresentation (l : ResumeLedger) (jobId : Uuid) : ResumeLedger :=
  l.setStanding jobId .charged

def applyStanding (l : ResumeLedger) (now : Nat) (jobId : Uuid) :
    StandingEffect → ResumeLedger
  | .resolve => l.resolve jobId
  | .resolveCooled => (l.resolve jobId).cool now jobId
  | .refund => l.noteAnsweredNotReady jobId
  | .recharge => l.noteUnansweredPresentation jobId
  | .keep => l

def remintBarred (l : ResumeLedger) (now : Nat) (jobId : Uuid) : Bool × ResumeLedger :=
  let cooldowns := Map.retain (fun _ bar => decide (now < bar)) l.remintCooldowns
  ((cooldowns.lookup jobId).isSome, { l with remintCooldowns := cooldowns })

def chargedLen (l : ResumeLedger) : Nat :=
  l.entries.countP fun e => e.standing = .charged

def mintHeadroom (l : ResumeLedger) (claimedLen availableSlots : Nat) : MintHeadroom :=
  if resumeLedgerCap ≤ l.entries.length then .atCap l.chargedLen l.entries.length
  else if availableSlots ≤ claimedLen + l.chargedLen then .budgetPinned l.chargedLen
  else .available

/-- `PresentationWindow::remaining` at the start of a pass. -/
def presentationWindow (l : ResumeLedger) : Nat :=
  min l.entries.length resumePresentationsPerPass

def beginPresentation (l : ResumeLedger) : Nat → Option (ResumeEntry × Nat × ResumeLedger)
  | 0 => none
  | remaining + 1 =>
    match l.entries with
    | [] => none
    | entry :: rest => some (entry, remaining, { l with entries := rest })

def pushBack (l : ResumeLedger) (entry : ResumeEntry) : ResumeLedger :=
  { l with entries := l.entries ++ [entry] }

def finishPresentation (l : ResumeLedger) (now : Nat) (entry : ResumeEntry) :
    StandingEffect → ResumeLedger
  | .resolve => l
  | .resolveCooled => l.cool now entry.jobId
  | .refund => l.pushBack { entry with standing := .credentialOnly }
  | .recharge => l.pushBack { entry with standing := .charged }
  | .keep => l.pushBack entry

def keys (l : ResumeLedger) : List (Uuid × Nonce) := l.entries.map ResumeEntry.key

variable {l l' : ResumeLedger} {window : Nat}

@[simp] theorem length_keys : l.keys.length = l.entries.length :=
  length_map _

@[simp] theorem keys_resolve (l : ResumeLedger) (jobId : Uuid) :
    (l.resolve jobId).keys = l.keys.filter fun k => k.1 ≠ jobId := by
  unfold resolve keys
  rw [filter_map]
  rfl

@[simp] theorem keys_setStanding : (l.setStanding jobId standing).keys = l.keys := by
  unfold setStanding keys
  induction l.entries with
  | nil => rfl
  | cons e rest ih =>
    simp only [replaceF]
    split <;> rename_i h
    · rw [map_cons, ih, map_cons]
    · split at h
      · cases h
        rfl
      · cases h

@[simp] theorem keys_pushBack (l : ResumeLedger) :
    (l.pushBack entry).keys = l.keys ++ [entry.key] :=
  map_append

theorem keys_applyStanding : (l.applyStanding now jobId effect).keys =
    if effect.Resolves then l.keys.filter fun k => k.1 ≠ jobId else l.keys := by
  cases effect with
  | resolve | resolveCooled => exact keys_resolve l jobId
  | refund | recharge => exact keys_setStanding
  | keep => rfl

theorem keys_finishPresentation : (l.finishPresentation now entry effect).keys =
    if effect.Resolves then l.keys else l.keys ++ [entry.key] := by
  cases effect with
  | resolve | resolveCooled => rfl
  | refund | recharge | keep => exact keys_pushBack l

theorem presentationWindow_eq_succ (h : l.keys ≠ []) :
    ∃ window, l.presentationWindow = window + 1 := by
  refine Nat.exists_eq_succ_of_ne_zero ?_
  have hl : 0 < l.entries.length := by
    rw [← length_keys]
    exact length_pos_iff.2 h
  unfold presentationWindow resumePresentationsPerPass
  omega

theorem beginPresentation_some (h : l.beginPresentation window = some (entry, remaining, l')) :
    l.keys = entry.key :: l'.keys := by
  unfold beginPresentation at h
  split at h
  · cases h
  · split at h
    · cases h
    · rename_i he
      cases h
      simp [keys, he]

theorem beginPresentation_none (h : l.beginPresentation window = none) :
    window = 0 ∨ l.keys = [] := by
  unfold beginPresentation at h
  split at h
  · exact .inl rfl
  · split at h
    · rename_i he
      exact .inr (by simp [keys, he])
    · cases h

theorem beginFreshClaim_some (h : l.beginFreshClaim jobId fill nonce = some l') :
    (∀ k ∈ l.keys, k.1 ≠ jobId) ∧ l.keys.length < resumeLedgerCap ∧
      l'.keys = l.keys ++ [(fill nonce).key] := by
  unfold beginFreshClaim at h
  split at h
  · cases h
  · rename_i hn
    split at h
    · cases h
    · rename_i hc
      cases h
      refine ⟨?_, ?_, ?_⟩
      · intro k hk hj
        obtain ⟨e, he, rfl⟩ := mem_map.1 hk
        exact hn (any_eq_true.2 ⟨e, he, decide_eq_true hj⟩)
      · rw [length_keys]
        exact Nat.lt_of_not_le hc
      · exact map_append

end ResumeLedger

end RioBuild.Resume
