import RioBuild.Resume.Covered

namespace RioBuild.Resume

def Barren (parseStr : String → Option Uuid) (events : Nat → Event) (k : Nat) (p : Pull) : Prop :=
  ∀ m, k ≤ m → ∀ a ∈ (state parseStr events m).world.attempts,
    ¬ (a.nonce = p.claimNonce ∧ a.pull = p.number)

theorem Barren.succ (h : Barren parseStr events k p) : Barren parseStr events (k + 1) p :=
  fun m hm => h m (Nat.le_of_succ_le hm)

theorem bounded_state (parseStr : String → Option Uuid) (events : Nat → Event) (k : Nat) :
    (state parseStr events k).Bounded := by
  induction k with
  | zero => exact ⟨Nat.zero_le _, List.nodup_nil, by nofun, by nofun⟩
  | succ k ih => exact (step_move parseStr).bounded ih

theorem handed_state (parseStr : String → Option Uuid) (events : Nat → Event) (k : Nat) :
    (state parseStr events k).Handed := by
  induction k with
  | zero => exact fun _ => rfl
  | succ k ih => exact handed_step parseStr (events k) ih

theorem claiming_of_awaited {phase : Phase} (h : phase.awaited = some (.fresh, jobId, nonce)) :
    ∃ descriptor rest, phase = .claiming jobId nonce descriptor rest := by
  cases phase with
  | presenting entry probing window => cases probing <;> cases h
  | claiming jobId nonce descriptor rest =>
    cases h
    exact ⟨descriptor, rest, rfl⟩
  | _ => cases h

theorem ended (h : Covered (Barren parseStr events k) (state parseStr events k))
    (hho : Honest parseStr events) (hh : HandsOver parseStr events)
    (haw : (state parseStr events k).phase.awaited = some (lane, jobId, nonce))
    (he : events k = .answer answer now) (hen : Ends lane answer) :
    (∀ a ∈ (state parseStr events k).world.attempts, a.nonce = nonce →
        a.execId ∈ answer.brings lane) ∧
      ∀ p ∈ (state parseStr events k).world.inflight, p.claimNonce = nonce →
        Barren parseStr events (k + 1) p := by
  have hl := hho k lane jobId nonce answer now haw he
  cases hen with
  | delivered assignment hlan han =>
    subst han
    obtain ⟨n, hn, hla⟩ := hl
    refine ⟨fun a ha hno => ?_, ?_⟩
    · rw [PullAnswer.brings, if_neg hlan]
      exact List.mem_singleton.2 (hh k lane jobId nonce assignment now haw he a ha hno)
    · rw [h.ordered.inflight_eq_nil hn hla]
      exact List.forall_mem_nil _
  | disproved han =>
    have hd : Disowned parseStr events k nonce := by
      rcases han with rfl | rfl <;> exact hl
    refine ⟨fun a ha hno => absurd hno (hd k le_rfl a ha), ?_⟩
    rintro p _ rfl m hm a ha ⟨hno, _⟩
    exact hd m (Nat.le_of_succ_le hm) a ha hno
  | unauthenticated hlan han =>
    -- The nonce is fresh, so the refused pull is the only one that was sent under it.
    subst han hlan
    obtain ⟨descriptor, rest, hph⟩ := claiming_of_awaited haw
    refine ⟨fun a ha hno => ?_, fun p hp hno m hm a ha hpu => ?_⟩
    · exact absurd rfl (hl a.pull (h.committed hph a ha hno) k le_rfl a ha)
    · exact hl p.number (h.single hph p hp hno) m (Nat.le_of_succ_le hm) a ha hpu.2

theorem covered_state (hho : Honest parseStr events) (hha : HandsOver parseStr events)
    (k : Nat) : Covered (Barren parseStr events k) (state parseStr events k) := by
  induction k with
  | zero =>
    exact ⟨⟨List.Pairwise.nil, by nofun, by nofun, by nofun⟩, by nofun, by nofun, by nofun,
      by nofun, by nofun, by nofun⟩
  | succ k ih =>
    have hm : Move (state parseStr events k) (events k) (state parseStr events (k + 1)) :=
      step_move parseStr
    have hb := bounded_state parseStr events k
    have ht := hm.taken_subset (handed_state parseStr events k)
    -- What is let go of was ended, so nothing is open or in flight under it.
    have hat : ∀ a ∈ (state parseStr events k).world.attempts,
        a.nonce ∈ (state parseStr events k).nonces →
          a.nonce ∈ (state parseStr events (k + 1)).nonces ∨
            a.execId ∈ (state parseStr events (k + 1)).taken := by
      intro a ha hh
      rcases hm.letGo hb hh with hh | ⟨lane, jobId, answer, now, hw, he, hen, hs⟩
      · exact .inl hh
      · exact .inr (hs ((ended ih hho hha hw he hen).1 a ha rfl))
    have hi : ∀ p ∈ (state parseStr events k).world.inflight,
        p.claimNonce ∈ (state parseStr events k).nonces ∨ Barren parseStr events k p →
          p.claimNonce ∈ (state parseStr events (k + 1)).nonces ∨
            Barren parseStr events (k + 1) p := by
      rintro p hp (hh | hba)
      · rcases hm.letGo hb hh with hh | ⟨lane, jobId, answer, now, hw, he, hen, _⟩
        · exact .inl hh
        · exact .inr ((ended ih hho hha hw he hen).2 p hp rfl)
      · exact .inr hba.succ
    rcases hm.world with ⟨hwo, hph⟩ | ⟨act, h⟩ | ⟨_, nonce, _, hwo, hn, hph⟩
    · exact ih.of_world hat hi ht hm.minted_le hwo hph
    · rw [h]
      refine ih.serve (fun _ => Barren.succ) act fun p hp a ha => ?_
      exact hp (k + 1) (Nat.le_succ k) a (h ▸ ha)
    · obtain ⟨key, hk, rfl⟩ := List.mem_map.1 hn
      exact ih.send hat hi ht hm.minted_le hwo hn
        ((bounded_state parseStr events (k + 1)).old key hk) hph

end RioBuild.Resume
