import RioBuild.Resume.Rotation

namespace RioBuild.Resume

theorem nonce_eq_state (hl : ∀ i ≤ n, jobId ∈ (state parseStr events (k + i)).held.map Prod.fst)
    (hb : (jobId, before) ∈ (state parseStr events k).held)
    (ha : (jobId, after) ∈ (state parseStr events (k + n)).held) : after = before := by
  induction n generalizing after with
  | zero => exact (bounded_state parseStr events k).nonce_eq ha hb
  | succ n ih =>
    obtain ⟨⟨_, nonce⟩, hm, rfl⟩ := List.mem_map.1 (hl n (Nat.le_succ n))
    have hmo : Move (state parseStr events (k + n)) (events (k + n))
      (state parseStr events (k + (n + 1))) := step_move parseStr
    rw [hmo.nonce_eq (bounded_state parseStr events (k + n)) hm ha]
    exact ih (fun i hi => hl i (Nat.le_succ_of_le hi)) hm

theorem mem_ledger_of_nonces {s : State} (hn : ∀ entry, ¬ s.Presenting entry) (h : n ∈ s.nonces) :
    n ∈ s.ledger.entries.map ResumeEntry.nonce := by
  have hh : s.held = s.ledger.keys := by
    rw [State.held]
    cases hp : s.phase with
    | presenting entry probing window => exact absurd ⟨probing, window, hp⟩ (hn entry)
    | _ => rfl
  rw [State.nonces, hh, ResumeLedger.keys, List.map_map] at h
  exact h

theorem jobs_eq (s : State) : s.jobs = s.ledger.entries.map ResumeEntry.jobId := by
  rw [State.jobs, ResumeLedger.keys, List.map_map]
  rfl

/-- Outside a presentation, the nonce of an open attempt that was not claimed is in the ledger; the
ledger is bounded, with one entry for a job and one nonce for as long as the entry lives; a pass
that finds an entry presents one; and an entry that lives on is presented again before 32 passes
are over. -/
theorem claim_kept (parseStr : String → Option Uuid) (events : Nat → Event)
    (hhonest : Honest parseStr events) (hhands : HandsOver parseStr events) :
    (∀ k, (∀ entry, ¬ (state parseStr events k).Presenting entry) →
      ∀ a ∈ (state parseStr events k).world.attempts, a.execId ∉ (state parseStr events k).taken →
          a.nonce ∈ (state parseStr events k).ledger.entries.map ResumeEntry.nonce) ∧
    (∀ k, (state parseStr events k).phase = .idle → (state parseStr events k).claimed = []) ∧
    (∀ k, (state parseStr events k).ledger.entries.length ≤ 32 ∧
      ((state parseStr events k).ledger.entries.map ResumeEntry.jobId).Nodup) ∧
    (∀ k n jobId before after,
      (∀ i ≤ n, jobId ∈ (state parseStr events (k + i)).held.map Prod.fst) →
        (jobId, before) ∈ (state parseStr events k).held →
          (jobId, after) ∈ (state parseStr events (k + n)).held → after = before) ∧
    (∀ k n, Starts (state parseStr events k) (events k) →
      (state parseStr events k).ledger.entries ≠ [] →
        (state parseStr events (k + 1 + n)).phase = .idle →
          ∃ i < n, ∃ entry, (state parseStr events (k + 1 + i)).Presenting entry) ∧
    ∀ k n jobId, jobId ∈ (state parseStr events k).ledger.entries.map ResumeEntry.jobId →
      (∀ i ≤ n, jobId ∈ (state parseStr events (k + i)).held.map Prod.fst) →
        (state parseStr events (k + n)).phase = .idle →
          32 ≤ Nat.count (fun i => Starts (state parseStr events (k + i)) (events (k + i))) n →
            ∃ i, 0 < i ∧ i < n ∧ ∃ entry,
              (state parseStr events (k + i)).Presenting entry ∧ entry.jobId = jobId := by
  refine ⟨?_, ?_, ?_, ?_, ?_, ?_⟩
  · intro k hn a ha ht
    have hc := (covered_state hhonest hhands k).attempts a ha
    exact mem_ledger_of_nonces hn (hc.resolve_right ht)
  · exact handed_state parseStr events
  · intro k
    have hb := bounded_state parseStr events k
    have hs : (state parseStr events k).ledger.keys.Sublist (state parseStr events k).held :=
      List.sublist_append_right _ _
    refine ⟨?_, ?_⟩
    · rw [← ResumeLedger.length_keys]
      exact hs.length_le.trans hb.cap
    · rw [← jobs_eq]
      exact hb.jobs.sublist (hs.map _)
  · intro k n jobId before after hl hbe haf
    exact nonce_eq_state hl hbe haf
  · intro k n hst he hi
    exact presented_of_pass hst (fun hni => he (List.map_eq_nil_iff.1 hni)) hi
  · intro k n jobId hle hl hi hp
    rw [← jobs_eq] at hle
    exact presented_again hle hl hi hp

def script (l : List Event) (k : Nat) : Event := l.getD k (.serve (.lose 0))

def sampleListing : List Descriptor := [⟨"job", "drv", "", "pruned"⟩]

/-- A fresh claim whose answer is lost, and its presentation in the next pass, which the scheduler
processes as `commit` says and answers with the attempt `execId`. -/
def lostAnswer (commit : Option String) (execId : String) : List Event :=
  [.poll 1, .present, .gate false, .listed (some sampleListing), .mint 0,
    .serve (.process (some "first")), .answer .unanswered 0, .mint 0,
    .poll 1, .present, .serve (.process commit),
    .answer (.deliver ⟨"", execId, "path"⟩) 0, .present, .gate false]

theorem script_answer (h : script (lostAnswer commit execId) k = .answer answer now) :
    k = 6 ∧ answer = .unanswered ∨ k = 11 ∧ answer = .deliver ⟨"", execId, "path"⟩ := by
  rcases lt_or_ge k 14 with hk | hk
  · interval_cases k <;> cases h <;> simp
  · rw [script, List.getD_eq_getElem?_getD, List.getElem?_eq_none hk] at h
    cases h

def sampleParse (_ : String) : Option Uuid := some 7

theorem honest_lostAnswer
    (h : (state sampleParse (script (lostAnswer commit execId)) 11).world.processed = [1, 0] ∧
      (state sampleParse (script (lostAnswer commit execId)) 11).world.sent = 2) :
    Honest sampleParse (script (lostAnswer commit execId)) := by
  intro k lane jobId nonce answer now _ he
  rcases script_answer he with ⟨rfl, rfl⟩ | ⟨rfl, rfl⟩
  · trivial
  · refine ⟨1, ?_, ?_⟩
    · rw [h.1]
      exact List.mem_cons_self
    · exact h.2.symm

theorem claim_kept_lostAnswer : Honest sampleParse (script (lostAnswer none "first")) ∧
      HandsOver sampleParse (script (lostAnswer none "first")) ∧
        0 ∈ (state sampleParse (script (lostAnswer none "first")) 8).ledger.entries.map
          ResumeEntry.nonce := by
  have hho : Honest sampleParse (script (lostAnswer none "first")) :=
    honest_lostAnswer (by decide +kernel)
  have hh : HandsOver sampleParse (script (lostAnswer none "first")) := by
    intro k lane jobId nonce assignment now _ he a ha _
    rcases script_answer he with ⟨rfl, h⟩ | ⟨rfl, h⟩
    · cases h
    · cases h
      have hat : (state sampleParse (script (lostAnswer none "first")) 11).world.attempts =
          [⟨"first", 0, 0⟩] := by decide +kernel
      rw [hat, List.mem_singleton] at ha
      rw [ha]
  have hp : (state sampleParse (script (lostAnswer none "first")) 8).phase = .idle := by
    decide +kernel
  refine ⟨hho, hh, ?_⟩
  exact (claim_kept sampleParse _ hho hh).1 8
    (State.not_presenting_of_idle hp) ⟨"first", 0, 0⟩ (by decide +kernel) (by decide +kernel)

/-- If the scheduler commits a second attempt under the nonce and hands that one over, the first is
open without a claim and without an entry. -/
theorem second_commit_loses_first :
    Honest sampleParse (script (lostAnswer (some "second") "second")) ∧
      (state sampleParse (script (lostAnswer (some "second") "second")) 14).phase = .idle ∧
      ∃ a ∈ (state sampleParse (script (lostAnswer (some "second") "second")) 14).world.attempts,
        a.execId ∉ (state sampleParse (script (lostAnswer (some "second") "second")) 14).taken ∧
          a.nonce ∉ (state sampleParse
            (script (lostAnswer (some "second") "second")) 14).ledger.entries.map
              ResumeEntry.nonce := by
  refine ⟨honest_lostAnswer (by decide +kernel), by decide +kernel, ⟨"first", 0, 0⟩, ?_, ?_, ?_⟩
  all_goals decide +kernel

end RioBuild.Resume
