import RioBuild.Resume.Kept

namespace RioBuild.Resume

open ResumeLedger List

def State.used (s : State) : Nat := s.claimed.length + s.ledger.chargedLen

/-- The event answers a fresh claim and takes the charge of its entry back. -/
def GivesBack (s : State) (e : Event) : Bool :=
  match s.phase, e with
  | .claiming _ _ _ _, .answer answer _ =>
    standingEffect .fresh answer = .refund ∨ standingEffect .fresh answer = .resolveCooled
  | _, _ => false

def Phase.mints : Phase → Bool
  | minting _ | claiming _ _ _ _ => true
  | _ => false

namespace ResumeLedger

variable (l : ResumeLedger) (jobId : Uuid)

theorem chargedLen_le_setStanding (standing : SlotStanding) :
    l.chargedLen ≤ (l.setStanding jobId standing).chargedLen +
      if standing = .charged then 0 else 1 := by
  unfold chargedLen setStanding
  dsimp only
  induction l.entries with
  | nil => exact Nat.zero_le _
  | cons e rest ih =>
    by_cases hj : e.jobId = jobId
    · simp only [replaceF, hj, if_true, countP_cons, decide_eq_true_eq]
      split_ifs <;> omega
    · simp only [replaceF, hj, if_false, countP_cons]
      omega

theorem chargedLen_le_resolve (hj : (l.keys.map Prod.fst).Nodup) :
    l.chargedLen ≤ (l.resolve jobId).chargedLen + 1 := by
  have ho := nodup_iff_count_le_one.mp hj jobId
  rw [keys, map_map, count, countP_map] at ho
  change l.entries.countP (fun e => e.jobId = jobId) ≤ 1 at ho
  have ho : (l.entries.filter fun e => !decide (e.jobId ≠ jobId)).length ≤ 1 := by
    simpa [countP_eq_length_filter] using ho
  have hs := countP_eq_countP_filter_add l.entries
    (fun e => e.standing = .charged) fun e => e.jobId ≠ jobId
  have hd := ho.trans' (countP_le_length (p := fun e => e.standing = .charged))
  unfold chargedLen resolve
  dsimp only
  omega

end ResumeLedger

/-- A pass that began when `minted` nonces were made, those given back counted in. -/
structure Spent (minted slots : Nat) (s : State) : Prop where
  cap : s.slots = slots
  bound : minted + slots ≥ s.minted
  loop : s.phase.mints → minted + s.used ≥ s.minted
  early : s.phase.mints = false → s.phase = .idle ∨ minted ≥ s.minted

variable {s : State} {parseStr : String → Option Uuid}

namespace Spent

theorem of_early (hc : s.slots = slots) (hm : minted ≥ s.minted)
    (hp : s.phase.mints = false) : Spent minted slots s :=
  ⟨hc, hm.trans (Nat.le_add_right _ _), by simp [hp], fun _ => .inr hm⟩

section

variable (h : Spent minted slots s)
include h

theorem add (back : Nat) : Spent (minted + back) slots s := by
  refine ⟨h.cap, ?_, fun hp => ?_, fun hp => (h.early hp).imp_right fun he => ?_⟩
  · have := h.bound
    omega
  · have := h.loop hp
    omega
  · omega

theorem finish : Spent minted slots s.finish :=
  ⟨h.cap, h.bound, by simp [State.finish, Phase.mints], fun _ => .inl rfl⟩

theorem mint {listed : List Descriptor} (hp : s.phase = .minting listed) (now : Nat) :
    Spent minted slots (s.mint parseStr now listed) := by
  have hl := h.loop (by rw [hp]; rfl)
  cases listed with
  | nil => exact h.finish
  | cons descriptor rest =>
    have hs : Spent minted slots { s with phase := .minting rest } :=
      ⟨h.cap, h.bound, fun _ => hl, by simp [Phase.mints]⟩
    rw [State.mint]
    split_ifs with hfu
    · exact h.finish
    · split
      · exact hs
      · dsimp only
        split_ifs
        · exact { hs with }
        · split
          · exact { hs with }
          · rename_i ledger hf
            have hc : ledger.chargedLen = s.ledger.chargedLen + 1 := by
              unfold beginFreshClaim at hf
              split_ifs at hf
              cases hf
              simp [chargedLen, remintBarred]
            have hca := h.cap
            refine ⟨h.cap, ?_, fun _ => ?_, by simp [Phase.mints]⟩ <;>
              simp only [State.used] at hl ⊢ <;> omega

theorem freshlyClaimed (hp : s.phase = .claiming jobId nonce descriptor rest)
    (hs : s.Bounded) (answer : PullAnswer) (now : Nat) :
    Spent (minted + (GivesBack s (.answer answer now)).toNat) slots
      (s.freshlyClaimed parseStr jobId descriptor rest answer now) := by
  have hl := h.loop (by rw [hp]; rfl)
  have hj : (s.ledger.keys.map Prod.fst).Nodup := by
    simpa [State.held, hp, Phase.popped] using hs.jobs
  have hr := s.ledger.chargedLen_le_resolve jobId hj
  have hc := s.ledger.chargedLen_le_setStanding jobId .charged
  have hb := s.ledger.chargedLen_le_setStanding jobId .credentialOnly
  have ha := (h.add (GivesBack s (.answer answer now)).toNat).bound
  unfold State.freshlyClaimed
  split_ifs with hsd
  · exact (h.add _).finish
  · refine ⟨h.cap, ha, fun _ => ?_, by simp [Phase.mints]⟩
    simp only [State.used] at hl ⊢
    cases answer with
    | deliver | unanswered =>
      simp only [standingEffect, applyStanding, noteUnansweredPresentation, length_append,
        length_singleton, if_true] at *
      omega
    | notYetReady =>
      -- the refund frees one slot, which is counted
      simp only [GivesBack, hp, standingEffect, applyStanding, noteAnsweredNotReady, or_false,
        reduceCtorEq, if_false, decide_true, Bool.toNat_true] at hb ⊢
      omega
    | gone | rejectedDisproving | rejectedAuth =>
      have hcl : ((s.ledger.resolve jobId).cool now jobId).chargedLen =
        (s.ledger.resolve jobId).chargedLen := rfl
      simp only [GivesBack, hp, standingEffect, applyStanding, hcl, or_true, reduceCtorEq,
        decide_true, Bool.toNat_true]
      omega
    | shutdown => exact absurd rfl hsd

theorem next (hs : s.Bounded) (hi : s.phase ≠ .idle) (e : Event) :
    Spent (minted + (GivesBack s e).toNat) slots (step parseStr s e) := by
  have he := fun hp => (h.early hp).resolve_left hi
  have hc := h.cap
  unfold step
  split
  · exact { h.add _ with }
  · exact absurd ‹_› hi
  · refine (of_early ?_ ?_ ?_).add _ <;> unfold State.present <;> split
    all_goals simp_all [Phase.mints]
  · refine (of_early ?_ ?_ ?_).add _ <;> unfold State.resumed <;> split_ifs
    all_goals simp_all [Phase.mints, State.finish]
  · refine (of_early ?_ ?_ ?_).add _ <;> unfold State.gate <;> split_ifs
    all_goals simp_all [Phase.mints, State.finish]
  · rename_i jobs hp
    have hm := he (by rw [hp]; rfl)
    cases jobs with
    | none => exact (of_early (s := s.listed none) hc hm rfl).add _
    | some jobs =>
      have hl : Spent minted slots (s.listed (some jobs)) :=
        ⟨hc, h.bound, fun _ => hm.trans (Nat.le_add_right _ _), by simp [State.listed, Phase.mints]⟩
      exact hl.add _
  · exact (h.mint ‹_› _).add _
  · exact h.freshlyClaimed ‹_› hs _ _
  · exact h.add _

end

end Spent

/-- A pass makes no more nonces than it has slots and fresh claims that give theirs back. -/
theorem pass_mints_le (parseStr : String → Option Uuid) (events : Nat → Event) (k n slots : Nat)
    (hidl : (state parseStr events k).phase = .idle) (hpol : events k = .poll slots)
    (hpas : ∀ j < n, (state parseStr events (k + 1 + j)).phase ≠ .idle) :
    (state parseStr events (k + 1 + n)).minted ≤ (state parseStr events k).minted + slots +
      (List.range n).countP fun j =>
        GivesBack (state parseStr events (k + 1 + j)) (events (k + 1 + j)) := by
  suffices h : Spent ((state parseStr events k).minted + (List.range n).countP fun j =>
      GivesBack (state parseStr events (k + 1 + j)) (events (k + 1 + j))) slots
      (state parseStr events (k + 1 + n)) from
    le_of_le_of_eq h.bound (Nat.add_right_comm _ _ _)
  induction n with
  | zero =>
    simp only [state, step, hidl, hpol]
    exact .of_early rfl le_rfl rfl
  | succ n ih =>
    have hs : Spent _ slots (step parseStr _ _) :=
      (ih fun j hj => hpas j (Nat.lt_succ_of_lt hj)).next (bounded_state parseStr events _)
        (hpas n n.lt_succ_self) (events (k + 1 + n))
    rw [List.range_succ, countP_append, ← Nat.add_assoc]
    simpa [countP_cons, Bool.toNat, Bool.cond_eq_ite, state] using hs

/-- Two listed jobs that another replica holds. -/
def contested : List Event :=
  [.poll 1, .present, .gate false,
    .listed (some [⟨"first", "drv", "", "pruned"⟩, ⟨"second", "drv", "", "pruned"⟩]),
    .mint 0, .answer .notYetReady 0, .mint 0, .answer .notYetReady 0, .mint 0]

/-- With one slot a pass over them makes two nonces. -/
theorem contested_pass_mints_two : let s := state (fun id => some id.length) (script contested)
    (s 0).phase = .idle ∧ script contested 0 = .poll 1 ∧ (∀ j < 8, (s (1 + j)).phase ≠ .idle) ∧
      (s 9).phase = .idle ∧ (s 0).minted + 1 < (s 9).minted := by
  decide +kernel

theorem pass_mints_le_contested :
    let events := script (contested.take 7 ++ [.answer (.deliver ⟨"second", "exec", "path"⟩) 0])
    (state (fun id => some id.length) events 8).minted = 2 ∧
      (state (fun id => some id.length) events 8).minted ≤ 0 + 1 + 1 := by
  intro events
  refine ⟨by decide +kernel, ?_⟩
  have hc : (List.range 7).countP (fun j => GivesBack
      (state (fun id => some id.length) events (0 + 1 + j)) (events (0 + 1 + j))) = 1 := by
    decide +kernel
  have hm := pass_mints_le (fun id => some id.length) events 0 7 1 rfl rfl (by decide +kernel)
  rw [hc] at hm
  exact hm

end RioBuild.Resume
