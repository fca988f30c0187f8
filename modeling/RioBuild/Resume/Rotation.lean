import RioBuild.Resume.Answers

namespace RioBuild.Resume

open List

theorem mem_take_filter {l : List α} (h : a ∈ l.take n) (hp : p a) : a ∈ (l.filter p).take n := by
  have hl : ((l.take n).filter p).length ≤ n :=
    (length_filter_le _ _).trans (length_take_le _ _)
  rw [← take_append_drop n l, filter_append, take_append, take_of_length_le hl]
  exact mem_append_left _ (mem_filter.2 ⟨h, hp⟩)

theorem mem_take_append {l m : List α} (h : a ∈ l.take n) : a ∈ (l ++ m).take n := by
  rw [take_append]
  exact mem_append_left _ h

namespace State

def jobs (s : State) : List Uuid := s.ledger.keys.map Prod.fst

/-- `passes` have begun since the job had its place, and each of them but the running one has
brought it forward. -/
def Due (s : State) (jobId : Uuid) (passes : Nat) : Prop :=
  ∃ place, jobId ∈ s.jobs.take place ∧
    (passes + place ≤ resumeLedgerCap ∨
      (∃ window, s.phase = .resuming (window + 1)) ∧ passes + place ≤ resumeLedgerCap + 1)

theorem Due.of_phase {s s' : State} (h : s.Due jobId passes)
    (hp : ∀ window, s.phase ≠ .resuming (window + 1))
    (hj : ∀ place, jobId ∈ s.jobs.take place → jobId ∈ s'.jobs.take place) :
    s'.Due jobId passes := by
  obtain ⟨place, hpl, hle | ⟨⟨window, hw⟩, _⟩⟩ := h
  · exact ⟨place, hj place hpl, .inl hle⟩
  · exact absurd hw (hp window)

end State

variable {s s' : State} {jobId : Uuid}

theorem State.keys_ne_nil (h : jobId ∈ s.jobs) : s.ledger.keys ≠ [] := by
  intro hk
  rw [jobs, hk] at h
  cases h

theorem Move.eq_poll (h : Move s e s') (hs : Starts s e) : ∃ slots, s' = s.poll slots := by
  cases h with
  | same hn => exact absurd hs hn
  | serve act he =>
    have hp := hs.2
    rw [he] at hp
    cases hp
  | poll slots _ _ h => exact ⟨slots, h⟩
  | quiet hi | mint _ _ _ hi => exact absurd hs.1 hi
  | present _ _ _ _ hb | resumed _ _ _ _ _ _ hb | claimed _ _ _ _ _ _ _ hb =>
    rw [hs.1] at hb
    cases hb

namespace State

theorem Due.poll (h : s.Due jobId passes) (hph : s.phase = .idle) (slots : Nat) :
    (s.poll slots).Due jobId (passes + 1) := by
  obtain ⟨place, hp, hle | ⟨⟨window, hw⟩, _⟩⟩ := h
  · have hk := keys_ne_nil (mem_of_mem_take hp)
    obtain ⟨window, hw⟩ := ResumeLedger.presentationWindow_eq_succ hk
    exact ⟨place, hp, .inr ⟨⟨window, congrArg Phase.resuming hw⟩, by omega⟩⟩
  · rw [hph] at hw
    cases hw

theorem Due.present (h : s.Due jobId passes) (hj : s.jobs = front :: s'.jobs)
    (hne : jobId ≠ front) : s'.Due jobId passes := by
  obtain ⟨place, hp, hle⟩ := h
  rw [hj] at hp
  cases place with
  | zero => cases hp
  | succ place =>
    rw [take_succ_cons, mem_cons] at hp
    refine ⟨place, hp.resolve_left hne, .inl ?_⟩
    rcases hle with hle | ⟨_, hle⟩ <;> omega

theorem Due.resolve (h : s.Due jobId passes) (hp : ∀ window, s.phase ≠ .resuming (window + 1))
    (hk : s'.ledger.keys = s.ledger.keys.filter fun k => k.1 ≠ other)
    (hstays : jobId ∈ s'.jobs) : s'.Due jobId passes := by
  have hj : s'.jobs = s.jobs.filter fun job => job ≠ other := by
    rw [jobs, hk, jobs, filter_map]
    rfl
  refine h.of_phase hp fun place hpl => ?_
  rw [hj] at hstays ⊢
  exact mem_take_filter hpl (mem_filter.1 hstays).2

end State

theorem Move.due (h : Move s e s') (hs : s.Bounded) (hd : s.Due jobId passes)
    (hstays : jobId ∈ s'.jobs) : s'.Due jobId (passes + if Starts s e then 1 else 0) := by
  by_cases hst : Starts s e
  · rw [if_pos hst]
    obtain ⟨slots, rfl⟩ := h.eq_poll hst
    exact hd.poll hst.1 slots
  rw [if_neg hst]
  cases h with
  | same _ h => exact h ▸ hd
  | serve act he h =>
    subst h
    exact hd
  | poll slots he hph => exact absurd ⟨hph, he ▸ rfl⟩ hst
  | quiet _ hw _ _ hk =>
    have hj : s'.jobs = s.jobs := congrArg (map Prod.fst) hk
    refine hd.of_phase (fun window hph => ?_) fun place hp => hj ▸ hp
    rcases hw _ hph with hz | hni
    · cases hz
    · exact State.keys_ne_nil (hj ▸ hstays) hni
  | present entry _ window _ hb _ hk =>
    have hj : s.jobs = entry.jobId :: s'.jobs := congrArg (map Prod.fst) hk
    refine hd.present hj ?_
    rintro rfl
    have hh : s.held = s.ledger.keys := State.held_of_awaited (by rw [hb]; rfl)
    have hn := hs.jobs
    rw [hh] at hn
    change s.jobs.Nodup at hn
    rw [hj] at hn
    exact (nodup_cons.1 hn).1 hstays
  | mint _ _ _ _ _ hw _ _ _ hk =>
    refine hd.of_phase (fun window => hw _) fun place hp => ?_
    rw [State.jobs, hk, map_append]
    exact mem_take_append hp
  | resumed entry _ _ _ _ _ hb _ hk =>
    refine hd.of_phase (by simp [hb]) fun place hp => ?_
    rw [State.jobs, hk]
    split
    · exact hp
    · rw [map_append]
      exact mem_take_append hp
  | claimed other _ _ _ _ _ _ hb _ hk =>
    split at hk
    · exact hd.resolve (by simp [hb]) hk hstays
    · have hj : s'.jobs = s.jobs := congrArg (map Prod.fst) hk
      exact hd.of_phase (by simp [hb]) fun place hp => hj ▸ hp

namespace State

def Opening (s : State) : Prop :=
  s.ledger.keys ≠ [] ∧ ∃ window, s.phase = .resuming (window + 1)

def Presenting (s : State) (entry : ResumeEntry) : Prop :=
  ∃ probing window, s.phase = .presenting entry probing window

theorem mem_jobs (hh : jobId ∈ s.held.map Prod.fst)
    (hn : ∀ entry, s.Presenting entry → entry.jobId ≠ jobId) : jobId ∈ s.jobs := by
  rw [held, map_append, mem_append] at hh
  refine hh.resolve_left fun hp => ?_
  cases hph : s.phase with
  | presenting entry probing window =>
    rw [hph] at hp
    exact hn entry ⟨probing, window, hph⟩ (mem_singleton.1 hp).symm
  | _ =>
    rw [hph] at hp
    cases hp

end State

theorem Move.opening (h : Move s e s') (hs : s.Opening) :
    s'.Opening ∨ ∃ entry, s'.Presenting entry := by
  obtain ⟨hk, window, hp⟩ := hs
  cases h with
  | same _ h => exact .inl (h ▸ ⟨hk, window, hp⟩)
  | serve act _ h =>
    subst h
    exact .inl ⟨hk, window, hp⟩
  | poll slots _ hi =>
    rw [hp] at hi
    cases hi
  | quiet _ hw =>
    rcases hw _ hp with hz | hn
    · cases hz
    · exact absurd hn hk
  | present entry probing _ remaining _ ha => exact .inr ⟨entry, probing, remaining, ha⟩
  | mint _ _ _ _ _ hw => exact absurd hp (hw _)
  | resumed _ _ _ _ _ _ hb | claimed _ _ _ _ _ _ _ hb =>
    rw [hp] at hb
    cases hb

variable {parseStr : String → Option Uuid} {events : Nat → Event} {k : Nat}

theorem opening_or_presented (hst : Starts (state parseStr events k) (events k))
    (hk : (state parseStr events k).ledger.keys ≠ []) (i : Nat) :
    (state parseStr events (k + 1 + i)).Opening ∨
      ∃ j ≤ i, ∃ entry, (state parseStr events (k + 1 + j)).Presenting entry := by
  induction i with
  | zero =>
    obtain ⟨slots, hs⟩ := (step_move parseStr).eq_poll hst
    obtain ⟨window, hw⟩ := ResumeLedger.presentationWindow_eq_succ hk
    rw [state, hs]
    exact .inl ⟨hk, window, congrArg Phase.resuming hw⟩
  | succ i ih =>
    rcases ih with ho | ⟨j, hj, hp⟩
    · have hm : Move (state parseStr events (k + 1 + i)) (events (k + 1 + i))
        (state parseStr events (k + 1 + (i + 1))) := step_move parseStr
      rcases hm.opening ho with ho | hp
      · exact .inl ho
      · exact .inr ⟨i + 1, le_rfl, hp⟩
    · exact .inr ⟨j, Nat.le_succ_of_le hj, hp⟩

theorem State.not_presenting_of_idle (h : s.phase = .idle) (entry : ResumeEntry) :
    ¬ s.Presenting entry := by
  rintro ⟨probing, window, hp⟩
  rw [h] at hp
  cases hp

theorem presented_of_pass (hs : Starts (state parseStr events k) (events k))
    (hk : (state parseStr events k).ledger.keys ≠ [])
    (hid : (state parseStr events (k + 1 + n)).phase = .idle) :
    ∃ i < n, ∃ entry, (state parseStr events (k + 1 + i)).Presenting entry := by
  rcases opening_or_presented hs hk n with ⟨_, window, hp⟩ | ⟨i, hi, entry, he⟩
  · rw [hid] at hp
    cases hp
  · refine ⟨i, lt_of_le_of_ne hi ?_, entry, he⟩
    rintro rfl
    exact State.not_presenting_of_idle hid entry he

section

variable (hstays : ∀ i ≤ n, jobId ∈ (state parseStr events (k + i)).jobs)
include hstays

theorem due_state : ∀ i ≤ n, (state parseStr events (k + i)).Due jobId
    (Nat.count (fun i => Starts (state parseStr events (k + i)) (events (k + i))) i) := by
  intro i hi
  induction i with
  | zero =>
    have hb := bounded_state parseStr events k
    refine ⟨resumeLedgerCap, ?_, .inl (by rw [Nat.count_zero, zero_add])⟩
    rw [take_of_length_le]
    · exact hstays 0 hi
    · have hc := hb.cap
      rw [State.held, length_append] at hc
      rw [State.jobs, length_map]
      exact (Nat.le_add_left _ _).trans hc
  | succ i ih =>
    have hm : Move (state parseStr events (k + i)) (events (k + i))
      (state parseStr events (k + (i + 1))) := step_move parseStr
    rw [Nat.count_succ]
    exact hm.due (bounded_state parseStr events (k + i)) (ih (Nat.le_of_succ_le hi))
      (hstays (i + 1) hi)

theorem passes_lt (hi : (state parseStr events (k + n)).phase = .idle) :
    Nat.count (fun i => Starts (state parseStr events (k + i)) (events (k + i))) n <
      resumeLedgerCap := by
  obtain ⟨place, hpl, hle | ⟨⟨window, hp⟩, _⟩⟩ := due_state hstays n le_rfl
  · cases place with
    | zero => cases hpl
    | succ place => omega
  · rw [hi] at hp
    cases hp

end

theorem presented_again (hl : jobId ∈ (state parseStr events k).jobs)
    (hli : ∀ i ≤ n, jobId ∈ (state parseStr events (k + i)).held.map Prod.fst)
    (hid : (state parseStr events (k + n)).phase = .idle)
    (hp : resumeLedgerCap ≤
      Nat.count (fun i => Starts (state parseStr events (k + i)) (events (k + i))) n) :
    ∃ i, 0 < i ∧ i < n ∧ ∃ entry,
      (state parseStr events (k + i)).Presenting entry ∧ entry.jobId = jobId := by
  by_contra hn
  push Not at hn
  have hstays : ∀ i ≤ n, jobId ∈ (state parseStr events (k + i)).jobs := by
    intro i hi
    rcases eq_zero_or_pos i with rfl | hpo
    · exact hl
    · refine State.mem_jobs (hli i hi) fun entry he => ?_
      rcases lt_or_eq_of_le hi with hlt | rfl
      · exact hn i hpo hlt entry he
      · exact absurd he (State.not_presenting_of_idle hid entry)
  exact absurd (passes_lt hstays hid) (not_lt.2 hp)

end RioBuild.Resume
