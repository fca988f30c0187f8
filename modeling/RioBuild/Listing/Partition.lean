import RioBuild.Listing.Owners

namespace RioBuild.Listing

open Lib List ListingContacts
open Dag (Uuid)

variable {score : Uuid → String → Nat} {plan : ListingPlan} {h : Hydrated}

theorem mergeAscending_eq_merge : mergeAscending a b = List.merge a b (· ≤ ·) := by
  fun_induction mergeAscending a b with
  | case1 x a y b hle ih => rw [cons_merge_cons_pos _ _ _ (by simpa using hle), ih]
  | case2 x a y b hle ih => rw [cons_merge_cons_neg _ _ _ (by simpa using hle), ih]
  | case3 x a ih => rw [ih, merge_right, merge_right]
  | case4 y b ih => simp [ih]
  | case5 => rw [merge_right]

structure Bucketed (plan : ListingPlan) : Prop where
  buckets : ∀ m, (plan.buckets.lookup m).getD [] =
    positions (fun row => plan.owner row.jobId = some m) plan.snapshot
  stolen : plan.stolen =
    positions (fun row => (plan.owner row.jobId).any (· ∈ plan.staleOwners)) plan.snapshot

theorem bucketed_rebuildStolen
    (hb : ∀ m, (plan.buckets.lookup m).getD [] =
      positions (fun row => plan.owner row.jobId = some m) plan.snapshot) :
    Bucketed plan.rebuildStolen where
  buckets := hb
  stolen := by
    change ((plan.staleOwners.sort.filterMap plan.buckets.lookup).flatten).mergeSort = _
    rw [mergeSort_buckets hb (Finset.sort_nodup _ _)]
    simp only [Finset.mem_sort]
    rfl

theorem bucketed_rebuildBuckets : Bucketed plan.rebuildBuckets :=
  bucketed_rebuildStolen fun m =>
    getD_lookup_buckets (fun row : MaterializationJobRow => plan.owner row.jobId) plan.snapshot m

theorem Bucketed.noteMemberFresh (hb : Bucketed plan) : Bucketed (plan.noteMemberFresh me) := by
  unfold ListingPlan.noteMemberFresh
  split
  · exact bucketed_rebuildStolen hb.buckets
  · exact hb

theorem staleOwners_noteMemberFresh :
    (plan.noteMemberFresh me).staleOwners = plan.staleOwners.erase me := by
  unfold ListingPlan.noteMemberFresh
  split
  · rfl
  · rename_i hm
    exact (Finset.erase_eq_of_notMem hm).symm

theorem noteMemberFresh_rest (me : String) (plan : ListingPlan) :
    (plan.noteMemberFresh me).owners = plan.owners ∧
      (plan.noteMemberFresh me).snapshot = plan.snapshot ∧
      (plan.noteMemberFresh me).lastBeat = plan.lastBeat := by
  unfold ListingPlan.noteMemberFresh
  split <;> exact ⟨rfl, rfl, rfl⟩

theorem Bucketed.serve_some (hb : Bucketed plan) (hme : me ∉ plan.staleOwners) :
    plan.serve (some me) = plan.snapshot.filter fun row =>
      (plan.owner row.jobId).any fun m => m = me || m ∈ plan.staleOwners := by
  have hd : ∀ row ∈ plan.snapshot, ¬(decide (plan.owner row.jobId = some me) = true ∧
      (plan.owner row.jobId).any (· ∈ plan.staleOwners) = true) := by
    rintro row - ⟨hm, hs⟩
    rw [of_decide_eq_true hm] at hs
    exact hme (by simpa using hs)
  change (mergeAscending ((plan.buckets.lookup me).getD []) plan.stolen).filterMap _ = _
  rw [mergeAscending_eq_merge, hb.buckets, hb.stolen, merge_positions hd, filterMap_positions]
  refine filter_congr fun row _ => ?_
  cases plan.owner row.jobId with
  | none | some m => simp

def Hydrated.overdue (h : Hydrated) (m : String) : Bool :=
  (h.contacts.contacts.lookup m).any fun last =>
    h.plan.lastBeat.any fun beat => listingStealHorizon < beat - last

structure Listed (score : Uuid → String → Nat) (now : Nat) (h : Hydrated) : Prop where
  owning : Owning score h.contacts.contacts.keys h.plan
  nodup : (h.plan.snapshot.map (·.jobId)).Nodup
  bucketed : Bucketed h.plan
  stale : h.plan.snapshot ≠ [] → ∀ m, m ∈ h.plan.staleOwners ↔ h.overdue m
  beat : ∀ t, h.plan.lastBeat = some t → t ≤ now

theorem Listed.start : Listed score 0 {} where
  owning := ⟨fun hw => by simp at hw, fun hS => by simp at hS⟩
  nodup := .nil
  bucketed := ⟨fun _ => rfl, rfl⟩
  stale hne := absurd rfl hne
  beat t ht := by simp at ht

theorem Listed.mono (hl : Listed score t h) (hle : t ≤ now) : Listed score now h :=
  { hl with beat := fun b hb => (hl.beat b hb).trans hle }

theorem keys_note (c : ListingContacts) :
    (c.note me now).1.contacts.keys = insert me c.contacts.keys := by
  ext m
  simp [note, Finmap.mem_keys]

variable {c : ListingContacts}

theorem mem_members : m ∈ (c.members now).map Prod.fst ↔
    ∃ last, c.contacts.lookup m = some last ∧ now - last ≤ listingMemberTtl := by
  simp only [members, mem_map, mem_filter, decide_eq_true_eq]
  constructor
  · rintro ⟨⟨m, last⟩, ⟨hm, hl⟩, rfl⟩
    exact ⟨last, Map.mem_rows.mp hm, hl⟩
  · rintro ⟨last, hla, hl⟩
    exact ⟨(m, last), ⟨Map.mem_rows.mpr hla, hl⟩, rfl⟩

def joinedPlan (score : Uuid → String → Nat) (me : String) (members : List String)
    (plan : ListingPlan) : ListingPlan :=
  ((plan.onJoin score me).reseedIfUnseeded score members).rebuildBuckets

theorem joinedPlan_rest (members : List String) :
    (joinedPlan score me members plan).snapshot = plan.snapshot ∧
      (joinedPlan score me members plan).staleOwners = plan.staleOwners ∧
      (joinedPlan score me members plan).lastBeat = plan.lastBeat := by
  unfold joinedPlan ListingPlan.reseedIfUnseeded
  split <;> exact ⟨rfl, rfl, rfl⟩

theorem listed_noted (hl : Listed score t h) (me : String) (now : Nat) :
    ∃ plan, recordCaller score me now h =
        { contacts := (h.contacts.note me now).1, plan := plan.noteMemberFresh me } ∧
      Owning score (insert me h.contacts.contacts.keys) plan ∧ Bucketed plan ∧
      plan.snapshot = h.plan.snapshot ∧ plan.staleOwners = h.plan.staleOwners ∧
      plan.lastBeat = h.plan.lastBeat := by
  cases hj : (h.contacts.contacts.lookup me).isNone with
  | true =>
    refine ⟨joinedPlan score me
      (((h.contacts.note me now).1.members now).map Prod.fst) h.plan, ?_, ?_,
      bucketed_rebuildBuckets, joinedPlan_rest _⟩
    · simp [recordCaller, note, hj, joinedPlan]
    · refine (owning_join hl.owning fun he m => ?_).of_eq rfl rfl
      rw [mem_members]
      have hno : h.contacts.contacts.lookup m = none := by
        rw [Finmap.lookup_eq_none, ← Finmap.mem_keys, he]
        simp
      by_cases hm : m = me
      · subst hm
        exact iff_of_true ⟨now, Finmap.lookup_insert _, by simp⟩ rfl
      · simp [note, hm, hno]
  | false =>
    refine ⟨h.plan, ?_, ?_, hl.bucketed, rfl, rfl, rfl⟩
    · simp [recordCaller, note, hj]
    · have hme : me ∈ h.contacts.contacts.keys := by
        by_contra hn
        rw [Finmap.lookup_eq_none.mpr hn] at hj
        simp at hj
      rw [Finset.insert_eq_of_mem hme]
      exact hl.owning

theorem listed_recordCaller (hl : Listed score t h) (me : String) (hle : t ≤ now) :
    Listed score now (recordCaller score me now h) ∧
      me ∉ (recordCaller score me now h).plan.staleOwners ∧
      me ∈ (recordCaller score me now h).contacts.contacts.keys := by
  obtain ⟨plan, heq, how, hbu, hs, hsl, hbe⟩ :=
    listed_noted hl me now
  obtain ⟨ho', hs', hbe'⟩ := noteMemberFresh_rest me plan
  rw [heq]
  refine ⟨⟨?_, ?_, hbu.noteMemberFresh, ?_, ?_⟩, ?_, ?_⟩
  · rw [keys_note]
    exact how.of_eq ho' hs'
  · rw [hs', hs]
    exact hl.nodup
  · intro hne m
    have hne' : h.plan.snapshot ≠ [] := by
      rw [← hs, ← hs']
      exact hne
    rw [staleOwners_noteMemberFresh, Finset.mem_erase, hsl, hl.stale hne']
    simp only [Hydrated.overdue, hbe', hbe, note, Map.lookup_insert_ite]
    by_cases hm : m = me
    · -- the stamp is no older than the last refresh
      cases hla : h.plan.lastBeat with
      | none => simp
      | some b =>
        have hb := hl.beat b hla
        simp [hm]
        omega
    · simp [hm]
  · intro b hb
    exact (hl.beat b (hbe ▸ hbe' ▸ hb)).trans hle
  · rw [staleOwners_noteMemberFresh]
    exact Finset.notMem_erase _ _
  · rw [keys_note]
    exact Finset.mem_insert_self _ _

theorem lookup_prune : (c.prune now).1.contacts.lookup m = some last ↔
    c.contacts.lookup m = some last ∧ now - last ≤ listingMemberTtl := by
  simp [prune, Map.lookup_retain]

theorem mem_leavers : m ∈ (c.prune now).2 ↔
    m ∈ c.contacts.keys ∧ m ∉ (c.prune now).1.contacts.keys := by
  simp only [prune, mem_map, mem_filter, decide_eq_true_eq,
    Finmap.mem_keys, Finmap.mem_iff, Map.lookup_retain, Option.filter_eq_some_iff]
  constructor
  · rintro ⟨⟨m, last⟩, ⟨hm, hd⟩, rfl⟩
    have hl := Map.mem_rows.mp hm
    refine ⟨⟨last, hl⟩, ?_⟩
    rintro ⟨last', hl', hli⟩
    cases hl.symm.trans hl'
    exact hd hli
  · rintro ⟨⟨last, hl⟩, hn⟩
    exact ⟨(m, last), ⟨Map.mem_rows.mpr hl, fun hli => hn ⟨last, hl, hli⟩⟩, rfl⟩

theorem mem_members_prune :
    m ∈ ((c.prune now).1.members now).map Prod.fst ↔ m ∈ (c.prune now).1.contacts.keys := by
  rw [mem_members, Finmap.mem_keys, Finmap.mem_iff]
  constructor
  · rintro ⟨last, hl, -⟩
    exact ⟨last, hl⟩
  · rintro ⟨last, hl⟩
    exact ⟨last, hl, (lookup_prune.mp hl).2⟩

theorem keys_prune_subset : (c.prune now).1.contacts.keys ⊆ c.contacts.keys := by
  intro m hm
  obtain ⟨last, hl⟩ := Finmap.mem_iff.mp (Finmap.mem_keys.mp hm)
  exact Finmap.mem_keys.mpr (Finmap.mem_iff.mpr ⟨last, (lookup_prune.mp hl).1⟩)

def restamp (caller : Option String) (rearmed : Nat) (c : ListingContacts) : ListingContacts :=
  match caller with
  | some me => (c.note me rearmed).1
  | none => c

theorem keys_restamp (hc : ∀ me, caller = some me → me ∈ c.contacts.keys) :
    (restamp caller rearmed c).contacts.keys = c.contacts.keys := by
  cases caller with
  | none => rfl
  | some me => exact (keys_note ..).trans (Finset.insert_eq_of_mem (hc me rfl))

theorem staleOwners_rebuildBuckets : plan.rebuildBuckets.staleOwners = plan.staleOwners := rfl

theorem mem_staleOwners_install :
    m ∈ (plan.spendInstall score token rows ((c.prune rearmed).1.members rearmed)
        spent).staleOwners ↔
      ∃ last, (c.prune rearmed).1.contacts.lookup m = some last ∧
        listingStealHorizon < spent - last := by
  rw [ListingPlan.spendInstall, staleOwners_rebuildBuckets]
  simp only [mem_toFinset, mem_map, mem_filter, members, decide_eq_true_eq]
  constructor
  · rintro ⟨⟨m, last⟩, ⟨⟨hm, -⟩, hs⟩, rfl⟩
    exact ⟨last, Map.mem_rows.mp hm, hs⟩
  · rintro ⟨last, hl, hs⟩
    exact ⟨(m, last), ⟨⟨Map.mem_rows.mpr hl, (lookup_prune.mp hl).2⟩, hs⟩, rfl⟩

theorem listed_install (hl : Listed score t h) (token : BeatToken)
    (hc : ∀ me, caller = some me → me ∈ h.contacts.contacts.keys) (hr : (rows.map (·.jobId)).Nodup)
    (hsp : spent ≤ rearmed + listingStealHorizon) :
    Listed score spent (install score token caller rows rearmed spent h) ∧ ∀ me, caller = some me →
        me ∉ (install score token caller rows rearmed spent h).plan.staleOwners ∧
        me ∈ (install score token caller rows rearmed spent h).contacts.contacts.keys := by
  let c := restamp caller rearmed h.contacts
  let members := (c.prune rearmed).1.members rearmed
  let left := (c.prune rearmed).2.foldl
    (fun plan leaver => plan.onLeave score leaver (members.map Prod.fst)) h.plan
  have heq : install score token caller rows rearmed spent h =
      { contacts := (c.prune rearmed).1
        plan := left.spendInstall score token rows members spent } := by
    cases caller <;> rfl
  have ho : Owning score c.contacts.keys h.plan := by
    rw [keys_restamp hc]
    exact hl.owning
  rw [heq]
  refine ⟨⟨?_, hr, bucketed_rebuildBuckets, fun _ m => ?_, fun b hb => ?_⟩, ?_⟩
  · let fetched : ListingPlan := { left with
      lastBeat := some spent, seenCreations := token.creationsSeen, snapshot := rows }
    have hw : Owning score (c.prune rearmed).1.contacts.keys
        (fetched.reconcileWindow score (fetched.snapshot.map (·.jobId)) (members.map Prod.fst)) :=
      owning_reconcileWindow (fun _ => mem_members_prune)
        (greatest_foldl_onLeave ho (fun _ => mem_members_prune) (fun _ => mem_leavers)
          keys_prune_subset)
    exact hw.of_eq rfl rfl
  · rw [mem_staleOwners_install]
    simp only [Hydrated.overdue, Option.any_eq_true, decide_eq_true_eq]
    constructor
    · rintro ⟨last, hla, hs⟩
      exact ⟨last, hla, spent, rfl, hs⟩
    · rintro ⟨last, hla, b, hb, hs⟩
      cases hb
      exact ⟨last, hla, hs⟩
  · cases hb
    exact le_rfl
  · rintro me rfl
    have hst : c.contacts.lookup me = some rearmed := Finmap.lookup_insert _
    constructor
    · rw [mem_staleOwners_install]
      rintro ⟨last, hla, hs⟩
      cases hst.symm.trans (lookup_prune.mp hla).1
      omega
    · exact Finmap.mem_keys.mpr (Finmap.mem_iff.mpr ⟨rearmed, lookup_prune.mpr ⟨hst, by simp⟩⟩)

theorem listed_spendFailed (hl : Listed score t h) (token : BeatToken) :
    Listed score spent { h with plan := h.plan.spendFailed token spent } where
  owning := ⟨hl.owning.greatest, fun _ row hr => absurd hr (not_mem_nil)⟩
  nodup := .nil
  bucketed := ⟨fun _ => rfl, rfl⟩
  stale hne := absurd rfl hne
  beat b hb := by
    cases hb
    exact le_rfl

/-- The clock of polls one after the other.  A reading that a poll does not make may be taken
equal to one that it makes. -/
def Clocked : Nat → List Poll → Prop
  | _, [] => True
  | t, p :: polls =>
    t ≤ p.armed ∧ p.armed ≤ p.rearmed ∧ p.rearmed ≤ p.spent ∧
      p.spent ≤ p.rearmed + listingStealHorizon ∧ Clocked p.spent polls

def Poll.DistinctRows (p : Poll) : Prop :=
  ∀ head rows, p.fetch head = some rows → (rows.map (·.jobId)).Nodup

/-- The rows a caller is to be offered, with the owners computed from all members at once. -/
def Hydrated.rowsFor (score : Uuid → String → Nat) (caller : Option String) (h : Hydrated) :
    List MaterializationJobRow :=
  match caller with
  | none => h.plan.snapshot
  | some me =>
    if h.contacts.contacts.keys = {me} then h.plan.snapshot
    else h.plan.snapshot.filter fun row =>
      (rendezvousOwner score row.jobId h.contacts.contacts.keys.sort).any fun m =>
        m = me || h.overdue m

structure Offering (score : Uuid → String → Nat) (now : Nat) (caller : Option String)
    (h : Hydrated) : Prop where
  listed : Listed score now h
  fresh : h.plan.snapshot ≠ [] → ∀ me, caller = some me → me ∉ h.plan.staleOwners
  noted : ∀ me, caller = some me → me ∈ h.contacts.contacts.keys

theorem Offering.offered_eq (ho : Offering score now caller h) :
    offered caller h = h.rowsFor score caller := by
  cases caller with
  | none => rfl
  | some me =>
    have hme := ho.noted me rfl
    unfold offered Hydrated.rowsFor
    by_cases hs : h.contacts.contacts.keys = {me}
    · have hl : ¬1 < h.contacts.len := by simp [len, hs]
      simp [hs, hl, ListingPlan.serve]
    · have hl : 1 < h.contacts.len := by
        by_contra hle
        exact hs (Finset.card_eq_one.mp
          (le_antisymm (not_lt.mp hle) (Finset.card_pos.mpr ⟨me, hme⟩)) |>.elim fun m hm => by
            rw [hm] at hme ⊢
            rw [mem_singleton.mp hme])
      simp only [Option.filter, hl, decide_true, if_true, hs]
      by_cases hne : h.plan.snapshot = []
      · simp [ListingPlan.serve, hne]
      · rw [ho.listed.bucketed.serve_some (ho.fresh hne me rfl)]
        refine filter_congr fun row hr => ?_
        obtain ⟨w, hw⟩ := ho.listed.owning.covered ⟨me, hme⟩ row hr
        rw [ho.listed.owning.rendezvousOwner_eq hw fun m => Finset.mem_sort _,
          ListingPlan.owner, hw, Option.map_some]
        simp [ho.listed.stale hne]

theorem offering_contact (hl : Listed score t h) (ha : t ≤ p.armed) :
    Offering score p.armed p.caller (contact score p h) := by
  unfold contact
  split
  · rename_i me hc
    obtain ⟨hl', hf, hmem⟩ := listed_recordCaller hl me ha
    rw [hc]
    refine ⟨hl', fun _ m hm => ?_, fun m hm => ?_⟩
    · cases hm
      exact hf
    · cases hm
      exact hmem
  · rename_i hc
    rw [hc]
    exact ⟨hl.mono ha, fun _ me hme => by simp at hme, fun me hme => by simp at hme⟩

theorem offering_beat (ho : Offering score p.armed p.caller h) (hr : p.DistinctRows)
    (hra : p.armed ≤ p.rearmed) (hs : p.rearmed ≤ p.spent)
    (hrd : p.spent ≤ p.rearmed + listingStealHorizon) :
    Offering score p.spent p.caller (beat score p h).1 ∧
      ((beat score p h).2 = true → (beat score p h).1.plan.snapshot = []) := by
  unfold beat
  split
  · exact ⟨⟨ho.listed.mono (hra.trans hs), ho.fresh, ho.noted⟩, fun hf => by simp at hf⟩
  · rename_i token _
    split
    · rename_i rows hft
      obtain ⟨hl', hc⟩ := listed_install ho.listed token ho.noted (hr _ _ hft) hrd
      exact ⟨⟨hl', fun _ me hm => (hc me hm).1, fun me hm => (hc me hm).2⟩, fun hf => by simp at hf⟩
    · exact ⟨⟨listed_spendFailed ho.listed token, fun hne => absurd rfl hne, ho.noted⟩,
        fun _ => rfl⟩

theorem offering_handle (hl : Listed score t h) (hr : p.DistinctRows)
    (hc : Clocked t [p]) : Listed score p.spent (handleListMaterializationJobs score h p).1 ∧
      (p.limit ≠ 0 → Offering score p.spent p.caller (handleListMaterializationJobs score h p).1) ∧
      (handleListMaterializationJobs score h p).2 =
        (((offered p.caller (handleListMaterializationJobs score h p).1).filter p.admits).take
          (min p.limit.toNat 256)).map JobDescriptor.fromRow := by
  obtain ⟨ha, hra, hs, hrd, -⟩ := hc
  obtain ⟨ho, hf⟩ := offering_beat (offering_contact hl ha) hr hra hs hrd
  unfold handleListMaterializationJobs
  simp only
  split
  · rename_i hz
    refine ⟨hl.mono (by omega), fun hne => ?_, by simp [hz]⟩
    have : p.limit.toNat ≠ 0 := fun h0 => hne (UInt32.toNat_inj.mp h0)
    omega
  · split
    · rename_i h' hb
      rw [hb] at ho hf
      refine ⟨ho.listed, fun _ => ho, ?_⟩
      have he := hf rfl
      have hn : offered p.caller h' = [] := by
        rw [ho.offered_eq]
        unfold Hydrated.rowsFor
        split
        · exact he
        · split
          · exact he
          · rw [he, filter_nil]
      simp [hn]
    · rename_i h' hb
      rw [hb] at ho
      exact ⟨ho.listed, fun _ => ho, rfl⟩

theorem listed_run (hl : Listed score t h) (hc : Clocked t (polls ++ [p]))
    (hr : ∀ q ∈ polls ++ [p], q.DistinctRows) : ∃ t', Clocked t' [p] ∧ Listed score t'
      (polls.foldl (fun h p => (handleListMaterializationJobs score h p).1) h) := by
  induction polls generalizing t h with
  | nil => exact ⟨t, hc, hl⟩
  | cons q polls ih =>
    obtain ⟨ha, hra, hs, hrd, hre⟩ := hc
    have hst := offering_handle hl (hr q mem_cons_self) ⟨ha, hra, hs, hrd, trivial⟩
    exact ih hst.1 hre fun q' hq' => hr q' (mem_cons_of_mem _ hq')

theorem rowsFor_sublist (caller : Option String) :
    (h.rowsFor score caller).Sublist h.plan.snapshot := by
  unfold Hydrated.rowsFor
  split
  · exact List.Sublist.refl _
  · split
    · exact List.Sublist.refl _
    · exact filter_sublist

theorem Listed.count_bucket (hl : Listed score t h) (hm : h.contacts.contacts.keys.Nonempty)
    (hr : h.plan.snapshot[i]? = some row) : ∃ w, h.plan.owners.lookup row.jobId = some w ∧
      ∀ m, ((h.plan.buckets.lookup m).getD []).count i = if m = w.member then 1 else 0 := by
  obtain ⟨w, hw⟩ := hl.owning.covered hm row (mem_of_getElem? hr)
  refine ⟨w, hw, fun m => ?_⟩
  rw [hl.bucketed.buckets, List.Nodup.count ((sorted_positions _ _).imp ne_of_lt)]
  refine if_congr ?_ rfl rfl
  rw [mem_positions]
  constructor
  · rintro ⟨row', hr', ho⟩
    obtain rfl : row = row' := Option.some.inj (hr.symm.trans hr')
    rw [ListingPlan.owner, hw] at ho
    exact (Option.some.inj (of_decide_eq_true ho)).symm
  · rintro rfl
    exact ⟨row, hr, by simp [ListingPlan.owner, hw]⟩

/-- After every poll: the owners kept are the ones recomputed over all members of the contact map,
each row is in one bucket, and the rows offered are those that the recomputed partition gives. -/
theorem partition_recomputed (score : Uuid → String → Nat) (polls : List Poll) (p : Poll)
    (hclock : Clocked 0 (polls ++ [p])) (hrows : ∀ q ∈ polls ++ [p], q.DistinctRows) :
    let h := run score (polls ++ [p])
    (∀ jobId w, h.plan.owners.lookup jobId = some w →
      IsGreatest (Set.image (rendezvousScore score jobId) h.contacts.contacts.keys) w) ∧
    (h.contacts.contacts.keys.Nonempty → ∀ i row, h.plan.snapshot[i]? = some row →
      ∃ w, h.plan.owners.lookup row.jobId = some w ∧
        ∀ m, ((h.plan.buckets.lookup m).getD []).count i = if m = w.member then 1 else 0) ∧
    (p.limit ≠ 0 → offered p.caller h = h.rowsFor score p.caller ∧
      (offered p.caller h).Sublist h.plan.snapshot ∧ (offered p.caller h).Nodup) ∧
    (handleListMaterializationJobs score (run score polls) p).2 =
      (((offered p.caller h).filter p.admits).take (min p.limit.toNat 256)).map
        JobDescriptor.fromRow := by
  obtain ⟨t, hclock', hl⟩ := listed_run Listed.start hclock hrows
  obtain ⟨hl', hof, hr⟩ := offering_handle hl (hrows p (by simp)) hclock'
  have hru : run score (polls ++ [p]) =
      (handleListMaterializationJobs score (run score polls) p).1 := by
    rw [run, foldl_append]
    rfl
  intro h
  simp only [h, hru]
  refine ⟨fun _ _ hw => hl'.owning.greatest hw, fun hm _ _ hrw =>
    hl'.count_bucket hm hrw, fun hlm => ?_, hr⟩
  have ho := (hof hlm).offered_eq
  refine ⟨ho, ?_, ?_⟩
  · exact ho ▸ rowsFor_sublist p.caller
  · exact ho ▸ (rowsFor_sublist p.caller).nodup (hl'.nodup.of_map _)

def samplePoll (caller : String) (now : Nat) : Poll where
  limit := 8
  caller := some caller
  creations := 0
  claimableNow _ := true
  status _ := none
  fetch _ := some [⟨1, "x", none, .pruned⟩, ⟨2, "y", none, .reprobe⟩]
  armed := now * nanosPerSec
  rearmed := now * nanosPerSec
  spent := now * nanosPerSec

def sampleScore (jobId : Uuid) (member : String) : Nat :=
  if jobId = 1 ↔ member = "a" then 7 else 3

theorem partition_recomputed_twoWorkers : Clocked 0 [samplePoll "a" 1, samplePoll "b" 2] ∧
      let h := run sampleScore [samplePoll "a" 1, samplePoll "b" 2]
      offered (some "b") h = h.rowsFor sampleScore (some "b") := by
  have hc : Clocked 0 [samplePoll "a" 1, samplePoll "b" 2] := by
    simp [Clocked, samplePoll, nanosPerSec]
  have hr : ∀ q ∈ [samplePoll "a" 1, samplePoll "b" 2], q.DistinctRows := by
    intro q hq head rows hf
    rcases mem_cons.mp hq with rfl | hq
    · cases hf
      decide
    · cases mem_singleton.mp hq
      cases hf
      decide
  have hp := partition_recomputed sampleScore [samplePoll "a" 1] (samplePoll "b" 2) hc hr
  exact ⟨hc, (hp.2.2.1 (by decide)).1⟩

end RioBuild.Listing
