import Mathlib
import RioBuild.Resume.Moves

namespace RioBuild.Resume

open List Phase

def Phase.popped : Phase → List (Uuid × Nonce)
  | presenting entry _ _ => [entry.key]
  | _ => []

theorem Phase.popped_of_awaited {phase : Phase} (h : phase.awaited = none) : phase.popped = [] := by
  cases phase with
  | presenting => cases h
  | _ => rfl

namespace State

def held (s : State) : List (Uuid × Nonce) := s.phase.popped ++ s.ledger.keys

def nonces (s : State) : List Nonce := s.held.map Prod.snd

theorem held_of_awaited {s : State} (h : s.phase.awaited = none) : s.held = s.ledger.keys := by
  rw [held, popped_of_awaited h, nil_append]

structure Bounded (s : State) : Prop where
  cap : s.held.length ≤ resumeLedgerCap
  jobs : (s.held.map Prod.fst).Nodup
  old : ∀ k ∈ s.held, k.2 < s.minted
  fresh : ∀ {jobId nonce descriptor rest}, s.phase = .claiming jobId nonce descriptor rest →
    (jobId, nonce) ∈ s.held

theorem Bounded.nonce_eq {s : State} (h : s.Bounded) (hn : (jobId, n) ∈ s.held)
    (hm : (jobId, m) ∈ s.held) : n = m :=
  congrArg Prod.snd (inj_on_of_nodup_map h.jobs hn hm rfl)

end State

variable {s s' : State}

section

variable (h : Move s e s')
include h

theorem Move.held : s'.held.Subperm s.held ∧ s'.minted = s.minted ∨
    ∃ jobId, (∀ k ∈ s.held, k.1 ≠ jobId) ∧ s.held.length < resumeLedgerCap ∧
      s'.held = s.held ++ [(jobId, s.minted)] ∧ s'.minted = s.minted + 1 := by
  cases h with
  | same _ h | serve act _ h =>
    subst h
    exact .inl ⟨List.Subperm.refl _, rfl⟩
  | poll slots _ hp h =>
    subst h
    refine .inl ⟨List.Perm.subperm ?_, rfl⟩
    simp [State.held, State.poll, hp, popped]
  | quiet _ _ hb ha hk _ hm =>
    rw [State.held_of_awaited hb, State.held_of_awaited ha, hk]
    exact .inl ⟨List.Subperm.refl _, hm⟩
  | present entry _ _ _ hb ha hk _ hm =>
    refine .inl ⟨List.Perm.subperm ?_, hm⟩
    simp [State.held, hb, ha, hk, popped]
  | mint jobId _ _ _ hb _ ha hj hc hk _ hm =>
    rw [State.held_of_awaited hb]
    refine .inr ⟨jobId, hj, hc, ?_, hm⟩
    simp [State.held, ha, hk, popped]
  | resumed entry _ _ _ _ _ hb ha hk _ hm =>
    rw [State.held_of_awaited ha, hk]
    simp only [State.held, hb]
    refine .inl ⟨?_, hm⟩
    split
    · exact (sublist_cons_self _ _).subperm
    · exact (perm_append_singleton _ _).subperm
  | claimed _ _ _ _ _ _ _ hb ha hk _ hm =>
    rw [State.held_of_awaited ha, hk]
    simp only [State.held, hb]
    refine .inl ⟨?_, hm⟩
    split
    · exact filter_sublist.subperm
    · exact List.Subperm.refl _

theorem Move.minted_le : s.minted ≤ s'.minted := by
  rcases h.held with ⟨_, hm⟩ | ⟨_, _, _, _, hm⟩
  · exact hm.ge
  · exact hm ▸ Nat.le_succ _

theorem Move.bounded (hs : s.Bounded) : s'.Bounded := by
  refine ⟨?_, ?_, ?_, ?_⟩
  · rcases h.held with ⟨hsu, _⟩ | ⟨jobId, _, hc, hh, _⟩
    · exact hsu.length_le.trans hs.cap
    · rw [hh, length_append]
      exact hc
  · rcases h.held with ⟨hsu, _⟩ | ⟨jobId, hj, _, hh, _⟩
    · obtain ⟨l, hpe, hsu⟩ := hsu
      exact (hpe.map _).nodup_iff.1 (hs.jobs.sublist (hsu.map _))
    · rw [hh, map_append, nodup_append]
      refine ⟨hs.jobs, nodup_singleton _, ?_⟩
      rintro x hx y hy rfl
      obtain ⟨k, hk, rfl⟩ := mem_map.1 hx
      exact hj k hk (mem_singleton.1 hy)
  · intro k hk
    rcases h.held with ⟨hsu, hm⟩ | ⟨jobId, _, _, hh, hm⟩
    · rw [hm]
      exact hs.old k (hsu.subset hk)
    · rw [hm]
      rw [hh, mem_append, mem_singleton] at hk
      rcases hk with hk | rfl
      · exact Nat.lt_succ_of_lt (hs.old k hk)
      · exact Nat.lt_succ_self _
  · intro jobId nonce descriptor rest hp
    cases h with
    | same _ h | serve act _ h =>
      subst h
      exact hs.fresh hp
    | poll slots _ _ h =>
      subst h
      cases hp
    | mint _ _ _ _ _ _ ha _ _ hks =>
      rw [hp] at ha
      cases ha
      rw [State.held, hks]
      simp
    | present _ _ _ _ _ ha | quiet _ _ _ ha | resumed _ _ _ _ _ _ _ ha
    | claimed _ _ _ _ _ _ _ _ ha =>
      rw [hp] at ha
      cases ha

theorem Move.nonce_eq (hs : s.Bounded) (hn : (jobId, n) ∈ s.held)
    (hm : (jobId, m) ∈ s'.held) : m = n := by
  rcases h.held with ⟨hsu, _⟩ | ⟨_, hj, _, hh, _⟩
  · exact hs.nonce_eq (hsu.subset hm) hn
  · rw [hh, mem_append, mem_singleton] at hm
    rcases hm with hm | hm
    · exact hs.nonce_eq hm hn
    · cases hm
      exact absurd rfl (hj _ hn)

theorem Move.letGo (hs : s.Bounded) (hn : n ∈ s.nonces) :
    n ∈ s'.nonces ∨ ∃ lane jobId answer now, s.phase.awaited = some (lane, jobId, n) ∧
      e = .answer answer now ∧ Ends lane answer ∧ answer.brings lane ⊆ s'.taken := by
  obtain ⟨key, hk, rfl⟩ := mem_map.1 hn
  have hh : ∀ {l}, s'.held = l → key ∈ l → key.2 ∈ s'.nonces := by
    rintro _ rfl hm
    exact mem_map_of_mem hm
  cases h with
  | same _ h | serve act _ h =>
    subst h
    exact .inl hn
  | poll slots _ hp h =>
    subst h
    refine .inl (hh rfl ?_)
    simpa [State.held, State.poll, hp, popped] using hk
  | quiet _ _ hb ha hks =>
    rw [State.held_of_awaited hb, ← hks] at hk
    exact .inl (hh (State.held_of_awaited ha) hk)
  | present entry _ _ _ hb ha hks =>
    refine .inl (hh rfl ?_)
    simpa [State.held, hb, ha, hks, popped] using hk
  | mint jobId _ _ _ hb _ ha _ _ hks =>
    rw [State.held_of_awaited hb] at hk
    refine .inl (hh rfl ?_)
    rw [State.held, hks]
    exact mem_append_right _ (mem_append_left _ hk)
  | resumed entry probing _ answer now he hb ha hks ht =>
    have hr := hh ((State.held_of_awaited ha).trans hks)
    rw [State.held, hb, popped, singleton_append, mem_cons] at hk
    split_ifs at hr with hre
    · rcases hk with rfl | hk
      · refine .inr ⟨_, entry.jobId, answer, now, ?_, he, ends_of_resolves hre, ?_⟩
        · rw [hb]
          rfl
        · rw [ht]
          exact subset_append_right _ _
      · exact .inl (hr hk)
    · refine .inl (hr ?_)
      rw [mem_append, mem_singleton]
      exact hk.symm
  | claimed jobId nonce _ _ answer now he hb ha hks ht =>
    have hr := hh ((State.held_of_awaited ha).trans hks)
    have hf := hs.fresh hb
    split_ifs at hr with hre
    · by_cases hj : key.1 = jobId
      · -- The job has one entry, that of the claim.
        have hno : key.2 = nonce := hs.nonce_eq (hj ▸ hk) hf
        refine .inr ⟨_, jobId, answer, now, ?_, he, ends_of_resolves hre, ?_⟩
        · rw [hb, hno]
          rfl
        · rw [ht]
          exact subset_append_right _ _
      · refine .inl (hr (mem_filter.2 ⟨?_, decide_eq_true hj⟩))
        simpa [State.held, hb, popped] using hk
    · refine .inl (hr ?_)
      simpa [State.held, hb, popped] using hk

theorem Move.taken_subset (hs : s.Handed) : s.taken ⊆ s'.taken := by
  cases h with
  | same _ h => exact h ▸ List.Subset.refl _
  | serve act _ h =>
    subst h
    exact List.Subset.refl _
  | poll slots _ hp h =>
    subst h
    simp [State.taken, State.poll, hs hp]
  | quiet _ _ _ _ _ ht | present _ _ _ _ _ _ _ ht | mint _ _ _ _ _ _ _ _ _ _ ht =>
    exact ht ▸ List.Subset.refl _
  | resumed _ _ _ _ _ _ _ _ _ ht | claimed _ _ _ _ _ _ _ _ _ _ ht =>
    exact ht ▸ subset_append_left _ _

theorem Move.world : (s'.world = s.world ∧ (s'.phase.awaited = none ∨ s'.phase = s.phase)) ∨
    (∃ act, s' = { s with world := s.world.serve act }) ∨
      ∃ intentId nonce confirmOnly, s'.world = s.world.send intentId nonce confirmOnly ∧
        nonce ∈ s'.nonces ∧ ∀ {jobId fresh descriptor rest},
          s'.phase = .claiming jobId fresh descriptor rest → fresh = s.minted := by
  cases h with
  | same _ h =>
    subst h
    exact .inl ⟨rfl, .inr rfl⟩
  | serve act _ h => exact .inr (.inl ⟨act, h⟩)
  | poll slots _ _ h =>
    subst h
    exact .inl ⟨rfl, .inl rfl⟩
  | quiet _ _ _ ha _ _ _ hw | resumed _ _ _ _ _ _ _ ha _ _ _ hw
  | claimed _ _ _ _ _ _ _ _ ha _ _ _ hw => exact .inl ⟨hw, .inl ha⟩
  | present entry _ _ _ _ ha _ _ _ hw =>
    refine .inr (.inr ⟨_, _, _, hw, ?_, ?_⟩)
    · rw [State.nonces, State.held, ha]
      exact mem_cons_self
    · intro _ _ _ _ hc
      rw [hc] at ha
      cases ha
  | mint _ _ _ _ _ _ ha _ _ hk _ _ hw =>
    refine .inr (.inr ⟨_, _, _, hw, ?_, ?_⟩)
    · rw [State.nonces, State.held, hk]
      simp
    · intro _ _ _ _ hc
      rw [hc] at ha
      cases ha
      rfl

end

namespace World

structure Ordered (w : World) : Prop where
  sorted : w.inflight.Pairwise fun p q => p.number < q.number
  sent : ∀ p ∈ w.inflight, p.number < w.sent
  past : ∀ n ∈ w.processed, n < w.sent
  processed : ∀ n ∈ w.processed, ∀ p ∈ w.inflight, n < p.number

variable {w : World}

theorem Ordered.send (h : w.Ordered) (intentId : String) (nonce : Nonce) (confirmOnly : Bool) :
    (w.send intentId nonce confirmOnly).Ordered where
  sorted := by
    refine pairwise_append.2 ⟨h.sorted, pairwise_singleton _ _, ?_⟩
    intro p hp q hq
    rw [mem_singleton.1 hq]
    exact h.sent p hp
  sent p hp := by
    rcases mem_append.1 hp with hp | hp
    · exact Nat.lt_succ_of_lt (h.sent p hp)
    · rw [mem_singleton.1 hp]
      exact Nat.lt_succ_self _
  past n hn := Nat.lt_succ_of_lt (h.past n hn)
  processed n hn p hp := by
    rcases mem_append.1 hp with hp | hp
    · exact h.processed n hn p hp
    · rw [mem_singleton.1 hp]
      exact h.past n hn

theorem inflight_serve (w : World) (act : Act) : (w.serve act).inflight.Sublist w.inflight := by
  cases act with
  | process execId =>
    rw [serve, process]
    split
    · exact List.Sublist.refl _
    · rename_i hi
      rw [hi]
      exact sublist_cons_self _ _
  | lose i => exact eraseIdx_sublist _ _
  | close execId => exact List.Sublist.refl _

theorem sent_serve : (w.serve act).sent = w.sent := by
  cases act with
  | process execId =>
    rw [serve, process]
    split <;> rfl
  | lose i | close execId => rfl

theorem mem_attempts_serve (h : a ∈ (w.serve act).attempts) :
    a ∈ w.attempts ∨ ∃ p ∈ w.inflight, a.nonce = p.claimNonce ∧ a.pull = p.number := by
  cases act with
  | process execId =>
    rw [serve, process] at h
    split at h
    · exact .inl h
    · rename_i p rest hi
      unfold commit at h
      split at h
      · split at h
        · exact .inl h
        · rcases mem_cons.1 h with rfl | h
          · rw [hi]
            exact .inr ⟨p, mem_cons_self, rfl, rfl⟩
          · exact .inl h
      · exact .inl h
  | lose i => exact .inl h
  | close execId => exact .inl (mem_of_mem_filter h)

theorem Ordered.serve (h : w.Ordered) (act : Act) : (w.serve act).Ordered where
  sorted := h.sorted.sublist (inflight_serve w act)
  sent p hp := by
    rw [sent_serve]
    exact h.sent p ((inflight_serve w act).subset hp)
  past n hn := by
    rw [sent_serve]
    cases act with
    | process execId =>
      rw [World.serve, process] at hn
      split at hn
      · exact h.past n hn
      · rename_i p rest hi
        rcases mem_cons.1 hn with rfl | hn
        · exact h.sent p (by rw [hi]; exact mem_cons_self)
        · exact h.past n hn
    | lose i | close execId => exact h.past n hn
  processed n hn q hq := by
    cases act with
    | process execId =>
      have hm := (inflight_serve w (.process execId)).subset hq
      rw [World.serve, process] at hn hq
      split at hn
      · exact h.processed n hn q hm
      · rename_i p rest hi
        have hs := h.sorted
        rw [hi] at hs hq
        rcases mem_cons.1 hn with rfl | hn
        · exact rel_of_pairwise_cons hs hq
        · exact h.processed n hn q hm
    | lose i => exact h.processed n hn q ((inflight_serve w (.lose i)).subset hq)
    | close execId => exact h.processed n hn q hq

theorem Ordered.inflight_eq_nil (h : w.Ordered) (hn : n ∈ w.processed) (hl : n + 1 = w.sent) :
    w.inflight = [] := by
  refine eq_nil_iff_forall_not_mem.2 fun p hp => ?_
  have := h.processed n hn p hp
  have := h.sent p hp
  omega

end World

/-- `barren` are the pulls that will not have an open attempt any more. -/
structure Covered (barren : Pull → Prop) (s : State) : Prop where
  ordered : s.world.Ordered
  attempts : ∀ a ∈ s.world.attempts, a.nonce ∈ s.nonces ∨ a.execId ∈ s.taken
  inflight : ∀ p ∈ s.world.inflight, p.claimNonce ∈ s.nonces ∨ barren p
  old : ∀ a ∈ s.world.attempts, a.nonce < s.minted
  sent : ∀ p ∈ s.world.inflight, p.claimNonce < s.minted
  committed : ∀ {jobId nonce descriptor rest}, s.phase = .claiming jobId nonce descriptor rest →
    ∀ a ∈ s.world.attempts, a.nonce = nonce → a.pull + 1 = s.world.sent
  single : ∀ {jobId nonce descriptor rest}, s.phase = .claiming jobId nonce descriptor rest →
    ∀ p ∈ s.world.inflight, p.claimNonce = nonce → p.number + 1 = s.world.sent

namespace Covered

theorem serve (h : Covered barren s) (hb : ∀ p, barren p → barren' p) (act : Act)
    (hne : ∀ p, barren p → ∀ a ∈ (s.world.serve act).attempts,
      ¬ (a.nonce = p.claimNonce ∧ a.pull = p.number)) :
    Covered barren' { s with world := s.world.serve act } where
  ordered := h.ordered.serve act
  attempts a ha := by
    rcases World.mem_attempts_serve ha with ho | ⟨p, hp, hpu⟩
    · exact h.attempts a ho
    · rcases h.inflight p hp with hn | hp
      · exact .inl (hpu.1 ▸ hn)
      · exact absurd hpu (hne p hp a ha)
  inflight p hp := (h.inflight p ((World.inflight_serve _ _).subset hp)).imp_right (hb p)
  old a ha := by
    rcases World.mem_attempts_serve ha with ho | ⟨p, hp, hn, _⟩
    · exact h.old a ho
    · exact hn ▸ h.sent p hp
  sent p hp := h.sent p ((World.inflight_serve _ _).subset hp)
  committed {jobId nonce descriptor rest} hc a ha hn := by
    rw [World.sent_serve]
    rcases World.mem_attempts_serve ha with ho | ⟨p, hp, hpn, hnu⟩
    · exact h.committed hc a ho hn
    · rw [hnu]
      exact h.single hc p hp (hpn ▸ hn)
  single {jobId nonce descriptor rest} hc p hp := by
    rw [World.sent_serve]
    exact h.single hc p ((World.inflight_serve _ _).subset hp)

section

variable {barren' : Pull → Prop} (h : Covered barren s)
    (hat : ∀ a ∈ s.world.attempts, a.nonce ∈ s.nonces → a.nonce ∈ s'.nonces ∨ a.execId ∈ s'.taken)
    (hi : ∀ p ∈ s.world.inflight,
      p.claimNonce ∈ s.nonces ∨ barren p → p.claimNonce ∈ s'.nonces ∨ barren' p)
    (ht : s.taken ⊆ s'.taken) (hm : s.minted ≤ s'.minted)
include h hat hi ht hm

theorem of_world (hw : s'.world = s.world)
    (hph : s'.phase.awaited = none ∨ s'.phase = s.phase) : Covered barren' s' where
  ordered := hw ▸ h.ordered
  attempts a ha := by
    rw [hw] at ha
    rcases h.attempts a ha with hn | hcl
    · exact hat a ha hn
    · exact .inr (ht hcl)
  inflight p hp := by
    rw [hw] at hp
    exact hi p hp (h.inflight p hp)
  old a ha := by
    rw [hw] at ha
    exact (h.old a ha).trans_le hm
  sent p hp := by
    rw [hw] at hp
    exact (h.sent p hp).trans_le hm
  committed {jobId nonce descriptor rest} hc := by
    rcases hph with hph | hph
    · rw [hc] at hph
      cases hph
    · rw [hw]
      exact h.committed (hph ▸ hc)
  single {jobId nonce descriptor rest} hc := by
    rcases hph with hph | hph
    · rw [hc] at hph
      cases hph
    · rw [hw]
      exact h.single (hph ▸ hc)

theorem send (hw : s'.world = s.world.send intentId nonce confirmOnly) (hn : nonce ∈ s'.nonces)
    (ho : nonce < s'.minted)
    (hph : ∀ {jobId fresh descriptor rest}, s'.phase = .claiming jobId fresh descriptor rest →
      fresh = s.minted) : Covered barren' s' where
  ordered := hw ▸ h.ordered.send intentId nonce confirmOnly
  attempts a ha := by
    rw [hw] at ha
    rcases h.attempts a ha with hn | hcl
    · exact hat a ha hn
    · exact .inr (ht hcl)
  inflight p hp := by
    rw [hw] at hp
    rcases mem_append.1 hp with hp | hp
    · exact hi p hp (h.inflight p hp)
    · rw [mem_singleton.1 hp]
      exact .inl hn
  old a ha := by
    rw [hw] at ha
    exact (h.old a ha).trans_le hm
  sent p hp := by
    rw [hw] at hp
    rcases mem_append.1 hp with hp | hp
    · exact (h.sent p hp).trans_le hm
    · rw [mem_singleton.1 hp]
      exact ho
  committed {jobId fresh descriptor rest} hc a ha heq := by
    rw [hw] at ha
    rw [hph hc] at heq
    exact absurd heq (h.old a ha).ne
  single {jobId fresh descriptor rest} hc p hp heq := by
    rw [hw] at hp ⊢
    rw [hph hc] at heq
    rcases mem_append.1 hp with hp | hp
    · exact absurd heq (h.sent p hp).ne
    · rw [mem_singleton.1 hp]
      rfl

end

end Covered

end RioBuild.Resume
