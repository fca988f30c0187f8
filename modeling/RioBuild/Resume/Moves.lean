import RioBuild.Resume.Pass

namespace RioBuild.Resume

open State ResumeLedger

def State.taken (s : State) : List String := (s.returned ++ s.claimed).map ClaimedJob.execId

def PullAnswer.brings (lane : PresentationLane) : PullAnswer → List String
  | deliver assignment => if lane = .probe then [] else [assignment.execId]
  | _ => []

def Event.isPoll : Event → Bool
  | poll _ => true
  | _ => false

theorem Event.eq_poll {e : Event} (h : e.isPoll) : ∃ slots, e = .poll slots := by
  cases e with
  | poll slots => exact ⟨slots, rfl⟩
  | _ => cases h

def Starts (s : State) (e : Event) : Prop := s.phase = .idle ∧ e.isPoll

instance (s : State) (e : Event) : Decidable (Starts s e) := inferInstanceAs (Decidable (_ ∧ _))

inductive Move (s : State) (e : Event) (s' : State) : Prop
  | same (hstart : ¬ Starts s e) (h : s' = s)
  | serve (act : Act) (he : e = .serve act) (h : s' = { s with world := s.world.serve act })
  | poll (slots : Nat) (he : e = .poll slots) (hphase : s.phase = .idle) (h : s' = s.poll slots)
  | quiet (hidle : s.phase ≠ .idle)
      (hwindow : ∀ window, s.phase = .resuming window → window = 0 ∨ s.ledger.keys = [])
      (hbefore : s.phase.awaited = none) (hafter : s'.phase.awaited = none)
      (hkeys : s'.ledger.keys = s.ledger.keys) (htaken : s'.taken = s.taken)
      (hminted : s'.minted = s.minted) (hworld : s'.world = s.world)
  | present (entry : ResumeEntry) (probing : Bool) (window remaining : Nat)
      (hbefore : s.phase = .resuming window)
      (hafter : s'.phase = .presenting entry probing remaining)
      (hkeys : s.ledger.keys = entry.key :: s'.ledger.keys) (htaken : s'.taken = s.taken)
      (hminted : s'.minted = s.minted)
      (hworld : s'.world = s.world.send entry.drvHash entry.nonce probing)
  | mint (jobId : Uuid) (descriptor : Descriptor) (rest : List Descriptor)
      (hidle : s.phase ≠ .idle) (hbefore : s.phase.awaited = none)
      (hwindow : ∀ window, s.phase ≠ .resuming window)
      (hafter : s'.phase = .claiming jobId s.minted descriptor rest)
      (hjob : ∀ k ∈ s.ledger.keys, k.1 ≠ jobId) (hcap : s.ledger.keys.length < resumeLedgerCap)
      (hkeys : s'.ledger.keys = s.ledger.keys ++ [(jobId, s.minted)]) (htaken : s'.taken = s.taken)
      (hminted : s'.minted = s.minted + 1)
      (hworld : s'.world = s.world.send descriptor.drvHash s.minted false)
  | resumed (entry : ResumeEntry) (probing : Bool) (window : Nat) (answer : PullAnswer) (now : Nat)
      (he : e = .answer answer now) (hbefore : s.phase = .presenting entry probing window)
      (hafter : s'.phase.awaited = none)
      (hkeys : s'.ledger.keys =
        if (standingEffect (resumeLane probing) answer).Resolves then s.ledger.keys
        else s.ledger.keys ++ [entry.key])
      (htaken : s'.taken = s.taken ++ answer.brings (resumeLane probing))
      (hminted : s'.minted = s.minted) (hworld : s'.world = s.world)
  | claimed (jobId : Uuid) (nonce : Nonce) (descriptor : Descriptor) (rest : List Descriptor)
      (answer : PullAnswer) (now : Nat) (he : e = .answer answer now)
      (hbefore : s.phase = .claiming jobId nonce descriptor rest)
      (hafter : s'.phase.awaited = none)
      (hkeys : s'.ledger.keys =
        if (standingEffect .fresh answer).Resolves then s.ledger.keys.filter fun k => k.1 ≠ jobId
        else s.ledger.keys)
      (htaken : s'.taken = s.taken ++ answer.brings .fresh)
      (hminted : s'.minted = s.minted) (hworld : s'.world = s.world)

namespace State

variable (parseStr : String → Option Uuid) {s : State}

@[simp] theorem taken_finish : s.finish.taken = s.taken := by
  simp [finish, taken]

@[simp] theorem execId_bind (expected : ExpectedJob) (assignment : WorkAssignment) :
    (ClaimedJob.bind parseStr expected assignment).execId = assignment.execId := by
  rfl

theorem move_quiet_phase (hidle : s.phase ≠ .idle)
    (hwindow : ∀ window, s.phase = .resuming window → window = 0 ∨ s.ledger.keys = [])
    (hbefore : s.phase.awaited = none)
    (h : s' = s.finish ∨ ∃ phase, phase.awaited = none ∧ s' = { s with phase := phase }) :
    Move s e s' := by
  rcases h with rfl | ⟨phase, hphase, rfl⟩
  · exact .quiet hidle hwindow hbefore rfl rfl taken_finish rfl rfl
  · exact .quiet hidle hwindow hbefore hphase rfl rfl rfl rfl

theorem move_present (hphase : s.phase = .resuming window) : Move s e (s.present window) := by
  unfold present
  split
  · rename_i hn
    refine move_quiet_phase ?_ ?_ ?_ (.inr ⟨.gating, rfl, rfl⟩)
    · rw [hphase]
      nofun
    · rintro _ hwindow
      rw [hphase] at hwindow
      cases hwindow
      exact beginPresentation_none hn
    · rw [hphase]
      rfl
  · rename_i hs
    exact .present _ _ _ _ hphase rfl (beginPresentation_some hs) rfl rfl rfl

theorem move_resumed (he : e = .answer answer now)
    (hphase : s.phase = .presenting entry probing window) :
    Move s e (s.resumed parseStr entry probing window answer now) := by
  refine .resumed entry probing window answer now he hphase ?_ ?_ ?_ ?_ ?_ <;> unfold resumed <;>
    split <;> rename_i hs
  · rfl
  · split <;> rfl
  · subst hs
    cases probing <;> exact keys_finishPresentation
  · exact keys_finishPresentation
  · subst hs
    simp [PullAnswer.brings, taken, finish]
  · cases probing <;> cases answer <;> simp [PullAnswer.brings, taken, resumeLane]
  all_goals rfl

theorem move_gate (hphase : s.phase = .gating) : Move s e (s.gate withholding) := by
  refine move_quiet_phase (by simp [hphase]) (by simp [hphase]) (by simp [hphase, Phase.awaited]) ?_
  unfold gate
  split_ifs
  · exact .inl rfl
  · exact .inl rfl
  · exact .inl rfl
  · exact .inr ⟨.listing, rfl, rfl⟩

theorem move_listed (hphase : s.phase = .listing) : Move s e (s.listed jobs) := by
  refine move_quiet_phase (by simp [hphase]) (by simp [hphase]) (by simp [hphase, Phase.awaited]) ?_
  cases jobs with
  | none => exact .inl rfl
  | some jobs => exact .inr ⟨.minting jobs, rfl, rfl⟩

theorem move_mint {listed : List Descriptor} (hphase : s.phase = .minting listed) :
    Move s e (s.mint parseStr now listed) := by
  have hidle : s.phase ≠ .idle := by simp [hphase]
  have hr : ∀ window, s.phase ≠ .resuming window := by simp [hphase]
  have hwindow : ∀ window, s.phase = .resuming window → window = 0 ∨ s.ledger.keys = [] :=
    fun window h => absurd h (hr window)
  have hbefore : s.phase.awaited = none := by simp [hphase, Phase.awaited]
  cases listed with
  | nil => exact move_quiet_phase hidle hwindow hbefore (.inl rfl)
  | cons descriptor rest =>
    rw [mint]
    split
    · exact move_quiet_phase hidle hwindow hbefore (.inl rfl)
    · split
      · exact move_quiet_phase hidle hwindow hbefore (.inr ⟨.minting rest, rfl, rfl⟩)
      · dsimp only
        split
        · exact .quiet hidle hwindow hbefore rfl rfl rfl rfl rfl
        · split
          · exact .quiet hidle hwindow hbefore rfl rfl rfl rfl rfl
          · rename_i hs
            obtain ⟨hjob, hcap, hkeys⟩ := beginFreshClaim_some hs
            exact .mint _ _ _ hidle hbefore hr rfl hjob hcap hkeys rfl rfl rfl

theorem move_freshlyClaimed (he : e = .answer answer now)
    (hphase : s.phase = .claiming jobId nonce descriptor rest) :
    Move s e (s.freshlyClaimed parseStr jobId descriptor rest answer now) := by
  refine .claimed jobId nonce descriptor rest answer now he hphase ?_ ?_ ?_ ?_ ?_ <;>
    unfold freshlyClaimed <;> split <;> rename_i hs
  · rfl
  · rfl
  · subst hs
    rfl
  · exact keys_applyStanding
  · subst hs
    simp [PullAnswer.brings, taken, finish]
  · cases answer <;> simp [PullAnswer.brings, taken]
  all_goals rfl

end State

theorem step_move (parseStr : String → Option Uuid) : Move s e (step parseStr s e) := by
  unfold step
  split
  · exact .serve _ rfl rfl
  · rename_i hphase
    exact .poll _ rfl hphase rfl
  · rename_i hphase
    exact move_present hphase
  · rename_i hphase
    exact move_resumed parseStr rfl hphase
  · rename_i hphase
    exact move_gate hphase
  · rename_i hphase
    exact move_listed hphase
  · rename_i hphase
    exact move_mint parseStr hphase
  · rename_i hphase
    exact move_freshlyClaimed parseStr rfl hphase
  · rename_i hp _ _ _ _ _ _
    refine .same ?_ rfl
    rintro ⟨hphase, he⟩
    obtain ⟨slots, he⟩ := Event.eq_poll he
    exact hp slots hphase he

def State.Handed (s : State) : Prop := s.phase = .idle → s.claimed = []

theorem State.handed_finish (s : State) : s.finish.Handed := fun _ => rfl

theorem handed_step (parseStr : String → Option Uuid) (e : Event) (hs : s.Handed) :
    (step parseStr s e).Handed := by
  unfold step
  split
  · exact hs
  · nofun
  · unfold present
    split <;> nofun
  · unfold resumed
    split
    · exact handed_finish _
    · intro h
      split at h <;> cases h
  · unfold gate
    split_ifs
    · exact handed_finish s
    · exact handed_finish s
    · exact handed_finish s
    · nofun
  · rename_i jobs _
    cases jobs with
    | none => exact handed_finish s
    | some jobs => nofun
  · unfold mint
    split
    · exact handed_finish s
    · split
      · exact handed_finish s
      · split
        · nofun
        · dsimp only
          split
          · nofun
          · split <;> nofun
  · unfold freshlyClaimed
    split
    · exact handed_finish s
    · nofun
  · exact hs

end RioBuild.Resume
