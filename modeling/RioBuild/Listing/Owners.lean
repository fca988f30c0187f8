import RioBuild.Listing.Plan

namespace RioBuild.Listing

open Lib List ListingPlan
open Dag (Uuid)

variable {score : Uuid → String → Nat} {jobId : Uuid} {w : Scored} {plan : ListingPlan}

theorem scoredOwner_eq_some : scoredOwner score jobId members = some w ↔
    IsGreatest (Set.image (rendezvousScore score jobId) {m | m ∈ members}) w := by
  rw [scoredOwner, max?_eq_some_iff]
  simp [IsGreatest, upperBounds]

theorem scoredOwner_isSome (score : Uuid → String → Nat) (jobId : Uuid) (h : members ≠ []) :
    ∃ w, scoredOwner score jobId members = some w := by
  cases hm : scoredOwner score jobId members with
  | some w => exact ⟨w, rfl⟩
  | none => exact absurd (map_eq_nil_iff.mp (max?_eq_none_iff.mp hm)) h

theorem member_mem_of_isGreatest (h : IsGreatest (Set.image (rendezvousScore score jobId) S) w) :
    w.member ∈ S := by
  obtain ⟨m, hm, rfl⟩ := h.1
  exact hm

theorem isGreatest_of_subset (hTS : T ⊆ S)
    (h : IsGreatest (Set.image (rendezvousScore score jobId) S) w) (hw : w.member ∈ T) :
    IsGreatest (Set.image (rendezvousScore score jobId) T) w := by
  obtain ⟨m, -, rfl⟩ := h.1
  exact ⟨⟨m, hw, rfl⟩, upperBounds_mono_set (Set.image_mono hTS) h.2⟩

structure Owning (score : Uuid → String → Nat) (S : Finset String) (plan : ListingPlan) :
    Prop where
  greatest : ∀ {jobId w}, plan.owners.lookup jobId = some w →
    IsGreatest (Set.image (rendezvousScore score jobId) S) w
  covered : S.Nonempty → ∀ row ∈ plan.snapshot, ∃ w, plan.owners.lookup row.jobId = some w

theorem Owning.of_eq (h : Owning score S plan)
    (ho : plan'.owners = plan.owners) (hs : plan'.snapshot = plan.snapshot) :
    Owning score S plan' where
  greatest hw := h.greatest (ho ▸ hw)
  covered hS row hr := by
    rw [ho]
    exact h.covered hS row (hs ▸ hr)

theorem Owning.owners_eq_empty (h : Owning score ∅ plan) : plan.owners = ∅ := by
  refine Finmap.ext_lookup fun jobId => ?_
  by_contra hne
  obtain ⟨w, hw⟩ := Option.ne_none_iff_exists'.mp hne
  exact absurd (member_mem_of_isGreatest (h.greatest hw)) (by simp)

theorem Owning.rendezvousOwner_eq (h : Owning score S plan)
    (hw : plan.owners.lookup jobId = some w) (hm : ∀ m, m ∈ members ↔ m ∈ S) :
    rendezvousOwner score jobId members = some w.member := by
  have hs := Set.ext hm
  rw [rendezvousOwner, scoredOwner_eq_some.mpr (hs ▸ h.greatest hw), Option.map_some]

theorem greatest_onJoin (h : Owning score S plan)
    (hw : (plan.onJoin score joiner).owners.lookup jobId = some w) :
    IsGreatest (Set.image (rendezvousScore score jobId) (insert joiner S : Finset String)) w := by
  simp only [onJoin, Map.lookup_adjust, Option.map_eq_some_iff] at hw
  obtain ⟨winner, hwi, hw⟩ := hw
  have hm : max (rendezvousScore score jobId joiner) winner = w := by
    rw [← hw]
    split_ifs with hlt
    · exact max_eq_left hlt.le
    · exact max_eq_right (not_lt.mp hlt)
  rw [← hm, Finset.coe_insert, Set.image_insert_eq]
  exact (h.greatest hwi).insert _

theorem lookup_foldl_enterWindow (window : List Uuid)
    (owners : Map Uuid Scored) : (window.foldl (enterWindow score members) owners).lookup jobId =
      if jobId ∈ window then (owners.lookup jobId).or (scoredOwner score jobId members)
      else owners.lookup jobId := by
  have hst : ∀ owners id, (enterWindow score members owners id).lookup jobId =
        if jobId = id then (owners.lookup jobId).or (scoredOwner score jobId members)
        else owners.lookup jobId := by
    intro owners id
    unfold enterWindow
    by_cases hi : jobId = id
    · subst hi
      cases ho : owners.lookup jobId with
      | some w => simp [ho]
      | none => cases hs : scoredOwner score jobId members <;> simp [ho]
    · cases ho : owners.lookup id with
      | some w => simp [hi]
      | none => cases hs : scoredOwner score id members <;> simp [hi]
  induction window generalizing owners with
  | nil => simp
  | cons id window ih =>
    rw [foldl_cons, ih, hst]
    by_cases hi : jobId = id
    · cases how : owners.lookup jobId <;> simp [hi]
    · simp [hi]

theorem lookup_reconcileWindow (window : List Uuid) :
    (plan.reconcileWindow score window members).owners.lookup jobId =
      if jobId ∈ window then (plan.owners.lookup jobId).or (scoredOwner score jobId members)
      else none := by
  simp only [reconcileWindow, Map.lookup_retain, lookup_foldl_enterWindow]
  by_cases hm : jobId ∈ window
  · cases (plan.owners.lookup jobId).or (scoredOwner score jobId members) <;> simp [hm]
  · simp [hm]

theorem owning_reconcileWindow {S : Finset String} (hme : ∀ m, m ∈ members ↔ m ∈ S)
    (hgt : ∀ {jobId w}, plan.owners.lookup jobId = some w →
      IsGreatest (Set.image (rendezvousScore score jobId) S) w) :
    Owning score S
      (plan.reconcileWindow score (plan.snapshot.map (·.jobId)) members) where
  greatest {jobId w} hw := by
    have hs := Set.ext hme
    rw [lookup_reconcileWindow] at hw
    split at hw
    · rcases Option.or_eq_some_iff.mp hw with hw | ⟨-, hw⟩
      · exact hgt hw
      · exact hs ▸ scoredOwner_eq_some.mp hw
    · exact absurd hw (by simp)
  covered hS row hr := by
    obtain ⟨m, hm⟩ := hS
    obtain ⟨w, hw⟩ := scoredOwner_isSome score row.jobId (ne_nil_of_mem ((hme m).mpr hm))
    have hwi : row.jobId ∈ plan.snapshot.map (·.jobId) := mem_map.mpr ⟨row, hr, rfl⟩
    rw [lookup_reconcileWindow, if_pos hwi, hw]
    cases plan.owners.lookup row.jobId with
    | none => exact ⟨w, rfl⟩
    | some v => exact ⟨v, rfl⟩

/-- A join, with the cache filled if it was empty.  The members that the filling sees are then
the joiner alone, so that it does not matter that it looks only at those not yet expired. -/
theorem owning_join (h : Owning score S plan)
    (hm : S = ∅ → ∀ m, m ∈ members ↔ m = joiner) : Owning score (insert joiner S)
      ((plan.onJoin score joiner).reseedIfUnseeded score members) := by
  unfold reseedIfUnseeded
  split_ifs with he
  · have hS : S = ∅ := by
      by_contra hne
      obtain ⟨row, rows, hro⟩ := exists_cons_of_ne_nil he.2
      obtain ⟨w, hw⟩ := h.covered (Finset.nonempty_iff_ne_empty.mpr hne) row (by
        change row ∈ (plan.onJoin score joiner).snapshot
        rw [hro]
        exact mem_cons_self)
      have hn : (plan.onJoin score joiner).owners.lookup row.jobId = none := by
        rw [he.1, Finmap.lookup_empty]
      simp [onJoin, Map.lookup_adjust, hw] at hn
    exact owning_reconcileWindow (fun m => by rw [hm hS m, hS]; simp) (greatest_onJoin h)
  · refine ⟨greatest_onJoin h, fun _ row hr => ?_⟩
    by_cases hS : S = ∅
    · subst hS
      refine absurd ⟨?_, ne_nil_of_mem hr⟩ he
      refine Finmap.ext_lookup fun id => ?_
      simp [onJoin, Map.lookup_adjust, h.owners_eq_empty]
    · obtain ⟨w, hw⟩ := h.covered (Finset.nonempty_iff_ne_empty.mpr hS) row hr
      simp [onJoin, Map.lookup_adjust, hw]

theorem lookup_foldl_onLeave (hne : survivors ≠ []) (leavers : List String)
    (hd : ∀ m ∈ survivors, m ∉ leavers) :
    (leavers.foldl (fun plan leaver => plan.onLeave score leaver survivors) plan).owners.lookup
        jobId =
      (plan.owners.lookup jobId).map fun winner =>
        if winner.member ∈ leavers then (scoredOwner score jobId survivors).getD winner
        else winner := by
  obtain ⟨s, hs⟩ := scoredOwner_isSome score jobId hne
  have hsm : s.member ∈ survivors := member_mem_of_isGreatest (scoredOwner_eq_some.mp hs)
  induction leavers generalizing plan with
  | nil => simp
  | cons leaver leavers ih =>
    rw [foldl_cons, ih fun m hm hi => hd m hm (mem_cons_of_mem _ hi)]
    simp only [onLeave, if_neg hne, Map.lookup_adjust, Option.map_map, hs]
    refine congrArg (Option.map · (plan.owners.lookup jobId)) (funext fun winner => ?_)
    -- a job given away once stays where it is: its new owner is no leaver
    by_cases hw : winner.member = leaver
    all_goals simp [hw]

theorem greatest_foldl_onLeave (h : Owning score S plan) {survivors leavers : List String}
    (hT : ∀ m, m ∈ survivors ↔ m ∈ T) (hl : ∀ m, m ∈ leavers ↔ m ∈ S ∧ m ∉ T) (hTS : T ⊆ S)
    (hw : (leavers.foldl (fun plan leaver => plan.onLeave score leaver survivors)
      plan).owners.lookup jobId = some w) :
    IsGreatest (Set.image (rendezvousScore score jobId) T) w := by
  by_cases hne : survivors = []
  · exfalso
    cases leavers with
    | nil =>
      have hS : S = ∅ := by
        refine Finset.eq_empty_of_forall_notMem fun m hm => ?_
        have hmT : m ∈ T := by
          by_contra hmT
          simpa using (hl m).mpr ⟨hm, hmT⟩
        simpa [hne] using (hT m).mpr hmT
      subst hS
      simp [h.owners_eq_empty] at hw
    | cons leaver leavers =>
      have he : ∀ (l : List String) (plan : ListingPlan), plan.owners = ∅ →
          (l.foldl (fun plan leaver => plan.onLeave score leaver survivors) plan).owners = ∅ := by
        intro l
        induction l with
        | nil => exact fun plan hp => hp
        | cons x l ih =>
          intro plan _
          exact ih _ (by simp [onLeave, hne])
      rw [foldl_cons, he _ _ (by simp [onLeave, hne])] at hw
      simp at hw
  · have hse := Set.ext hT
    rw [lookup_foldl_onLeave hne leavers fun m hm hi =>
      ((hl m).mp hi).2 ((hT m).mp hm)] at hw
    obtain ⟨winner, hwi, hw⟩ := Option.map_eq_some_iff.mp hw
    have hgt := h.greatest hwi
    split_ifs at hw with hsy
    · obtain ⟨s, hs⟩ := scoredOwner_isSome score jobId hne
      rw [hs] at hw
      subst hw
      exact hse ▸ scoredOwner_eq_some.mp hs
    · subst hw
      refine isGreatest_of_subset (Finset.coe_subset.mpr hTS) hgt ?_
      by_contra hn
      exact hsy ((hl _).mpr ⟨member_mem_of_isGreatest hgt, hn⟩)

end RioBuild.Listing
