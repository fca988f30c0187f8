import RioBuild.Materialize.Journal

namespace RioBuild.Materialize

open Lib List Resolved

namespace Walk

def Served (w : Walk) (p : String) : Prop := ∃ r ∈ w.journal.resolved, r.path = p ∧ r.isServed

def SettledWanted (w : Walk) (p : String) : Prop :=
  ∃ r ∈ w.journal.resolved, r.path = p ∧ r.isSettled ∧ r.cell = .wanted

def Refers (w : Walk) (p q : String) : Prop :=
  ∃ r ∈ w.journal.resolved, r.path = p ∧ q ∈ r.next

def Reached (w : Walk) (p : String) : Prop :=
  ∃ s ∈ w.lastWanted, Relation.ReflTransGen w.Refers s p

end Walk

structure Rested (w : Walk) : Prop where
  registered : Registered w
  mem_visited : ∀ p, p ∈ w.visited ↔
    ∃ r ∈ w.journal.resolved, r.path = p ∧ r.isLive w.tenantGeneration
  nodup : ((w.journal.resolved.filter (isLive w.tenantGeneration)).map
    path).Nodup
  closed : ∀ r ∈ w.journal.resolved, ∀ q ∈ r.next,
    q ∈ w.visited ∨ q ∈ w.reseedReferences ∨ w.SettledWanted q
  consulted : ∀ r ∈ w.journal.resolved, r.generation = w.tenantGeneration →
    ∃ T, w.journal.reads[r.iteration]? = some T ∧
      ∀ j T', r.iteration ≤ j → w.journal.reads[j]? = some T' → T' ⊆ T
  lastTenants : w.lastTenants = w.journal.reads.getLast?.getD ∅
  tenants : ∀ T ∈ w.journal.reads, T ≠ ∅
  card : w.visited.card ≤ closureWalkCap
  enqueued : w.journal.enqueued.Perm (w.journal.resolved.map admission)

namespace Rested

variable {w : Walk}

theorem init : Rested {} where
  registered := .init
  mem_visited := by simp
  nodup := by simp
  closed := by simp
  consulted := by simp
  lastTenants := rfl
  tenants := by simp
  card := Nat.zero_le _
  enqueued := .nil

theorem eq_of_path (h : Rested w) (hr : r ∈ w.journal.resolved) (hr' : r' ∈ w.journal.resolved)
    (hl : r.isLive w.tenantGeneration) (hl' : r'.isLive w.tenantGeneration)
    (hp : r.path = r'.path) : r = r' :=
  inj_on_of_nodup_map h.nodup (mem_filter.mpr ⟨hr, hl⟩)
    (mem_filter.mpr ⟨hr', hl'⟩) hp

theorem not_served (h : Rested w) (hr : r ∈ w.journal.resolved) (hs : r.isSettled)
    (hg : r.generation = w.tenantGeneration) : ¬w.Served r.path := by
  rintro ⟨r', hr', hp, hsv⟩
  have heq := h.eq_of_path hr' hr (by simp [isLive, hsv]) (by simp [isLive, hs, hg]) hp
  subst heq
  unfold isSettled at hs
  unfold isServed at hsv
  cases ha : r'.answer <;> simp [ha] at hs hsv

theorem nodup_filterMap (h : Rested w)
    (hf : ∀ r ∈ w.journal.resolved, ∀ x, f r = some x →
      g x = r.path ∧ r.isLive w.tenantGeneration) :
    ((w.journal.resolved.filterMap f).map g).Nodup := by
  refine List.Nodup.sublist ?_ h.nodup
  have hs : ∀ l : List Resolved, (∀ r ∈ l, ∀ x, f r = some x →
      g x = r.path ∧ r.isLive w.tenantGeneration) → ((l.filterMap f).map g).Sublist
        ((l.filter (isLive w.tenantGeneration)).map path) := by
    intro l hl
    induction l with
    | nil => exact .slnil
    | cons r l ih =>
      have ih := ih fun r' hr' => hl r' (mem_cons_of_mem _ hr')
      rw [filterMap_cons]
      cases hr : f r with
      | none => exact ih.trans (((sublist_cons_self r l).filter _).map _)
      | some x =>
        obtain ⟨hp, hli⟩ := hl r mem_cons_self x hr
        rw [filter_cons_of_pos hli, map_cons, hp]
        exact ih.cons_cons _
  exact hs _ hf

end Rested

section Growth

variable {w : Walk} {select : PathCell → Bool → Bool → Bool}

variable {cells : GenStampedCells}

theorem mem_stamps
    (hc : cells.cells = w.journal.resolved.filterMap (stamp select w.tenantGeneration)) :
    p ∈ cells.paths ↔ ∃ r ∈ w.journal.resolved, r.path = p ∧ r.generation = w.tenantGeneration ∧
      ∃ t c, r.answer = .settled t c ∧ select r.cell t c := by
  simp only [GenStampedCells.paths, hc, mem_map, mem_filterMap, stamp_eq_some]
  constructor
  · rintro ⟨x, ⟨r, hr, rfl, hg, hs⟩, rfl⟩
    exact ⟨r, hr, rfl, hg, hs⟩
  · rintro ⟨r, hr, rfl, hg, hs⟩
    exact ⟨_, ⟨r, hr, rfl, hg, hs⟩, rfl⟩

theorem drainStale_stamps
    (hc : cells.cells = w.journal.resolved.filterMap (stamp select w.tenantGeneration)) :
    cells.drainStale (w.tenantGeneration + 1) = (cells.paths, {}) := by
  have ha : ∀ x ∈ cells.cells, x.2 < w.tenantGeneration + 1 := by
    intro x hx
    rw [hc, mem_filterMap] at hx
    obtain ⟨r, -, hr⟩ := hx
    rw [(stamp_eq_some.mp hr).1]
    exact Nat.lt_succ_self _
  have hk : cells.cells.filter (fun x => ¬x.2 < w.tenantGeneration + 1) = [] := by
    simpa using ha
  have hs : cells.cells.filter (fun x => x.2 < w.tenantGeneration + 1) = cells.cells :=
    filter_eq_self.mpr fun x hx => decide_eq_true (ha x hx)
  rw [GenStampedCells.drainStale, hk, hs]
  rfl

def Walk.reopen (w : Walk) (current : Finset Uuid) : Walk :=
  { w with
    tenantGeneration := w.tenantGeneration + 1
    missingWanted := {}
    missingReferences := {}
    trustRefused := {}
    contentMismatched := {}
    visited := w.visited \ (w.missingWanted.paths ++ w.missingReferences.paths).toFinset
    reseedReferences := w.reseedReferences ++ w.missingReferences.paths
    lastTenants := current
    journal.reads := w.journal.reads ++ [current] }

theorem observeTenants_of_grew (h : Registered w) (hg : ¬current ⊆ w.lastTenants)
    (hl : w.lastTenants ≠ ∅) : w.observeTenants current = w.reopen current := by
  rw [Walk.observeTenants]
  simp [hg, hl, Walk.reopen,
    drainStale_stamps h.missingWanted, drainStale_stamps h.missingReferences,
    drainStale_stamps h.trustRefused, drainStale_stamps h.contentMismatched]

theorem observeTenants_of_not_grew (hg : ¬(¬current ⊆ w.lastTenants ∧ w.lastTenants ≠ ∅)) :
    w.observeTenants current =
      { w with lastTenants := current, journal.reads := w.journal.reads ++ [current] } := by
  rw [Walk.observeTenants]
  simp [if_neg hg]

theorem isLive_succ (h : Registered w) (hr : r ∈ w.journal.resolved) :
    r.isLive (w.tenantGeneration + 1) = r.isServed := by
  have hle := h.generations r hr
  have hne : r.generation ≠ w.tenantGeneration + 1 := by omega
  simp [isLive, hne]

theorem Registered.reopen (h : Registered w) : Registered (w.reopen current) := by
  have hn : ∀ select, w.journal.resolved.filterMap
      (stamp select (w.tenantGeneration + 1)) = [] := by
    intro select
    refine filterMap_eq_nil_iff.mpr fun r hr => ?_
    refine Option.eq_none_iff_forall_ne_some.mpr fun x hx => ?_
    have hle := h.generations r hr
    have hg := (stamp_eq_some.mp hx).2.1
    omega
  exact ⟨h.ingested, h.verified, h.tenants, h.edges, (hn _).symm, (hn _).symm,
    (hn _).symm, (hn _).symm, fun r hr => (h.generations r hr).trans (Nat.le_succ _)⟩

end Growth

namespace Rested

variable {w : Walk} {current : Finset Uuid}

section

variable (h : Rested w)
include h

theorem mem_missing (hr : r ∈ w.journal.resolved) (hs : r.isSettled)
    (hg : r.generation = w.tenantGeneration) :
    r.path ∈ w.missingWanted.paths ∧ w.SettledWanted r.path ∨
      r.path ∈ w.missingReferences.paths := by
  obtain ⟨t, c, ha⟩ : ∃ t c, r.answer = .settled t c := by
    unfold isSettled at hs
    cases ha : r.answer <;> simp [ha] at hs ⊢
  rw [mem_stamps h.registered.missingWanted, mem_stamps h.registered.missingReferences]
  cases hc : r.cell with
  | wanted =>
    exact .inl ⟨⟨r, hr, rfl, hg, t, c, ha, by rw [hc]; rfl⟩, r, hr, rfl, hs, hc⟩
  | reference => exact .inr ⟨r, hr, rfl, hg, t, c, ha, by rw [hc]; rfl⟩

theorem not_served_of_stamps {cells : GenStampedCells}
    (hc : cells.cells = w.journal.resolved.filterMap (stamp select w.tenantGeneration))
    (hp : p ∈ cells.paths) : ¬w.Served p := by
  obtain ⟨r, hr, rfl, hg, t, c, ha, -⟩ := (mem_stamps hc).mp hp
  exact h.not_served hr (by rw [isSettled, ha]) hg

theorem mem_visited_reopen : p ∈ (w.reopen current).visited ↔ w.Served p := by
  simp only [Walk.reopen, Finset.mem_sdiff, mem_toFinset, mem_append, h.mem_visited]
  constructor
  · rintro ⟨⟨r, hr, rfl, hl⟩, hn⟩
    rw [isLive, Bool.or_eq_true, Bool.and_eq_true, decide_eq_true_eq] at hl
    refine ⟨r, hr, rfl, hl.resolve_right fun hs => hn ?_⟩
    exact (h.mem_missing hr hs.1 hs.2).imp_left And.left
  · rintro ⟨r, hr, rfl, hsv⟩
    refine ⟨⟨r, hr, rfl, by simp [isLive, hsv]⟩, ?_⟩
    rintro (hp | hp)
    · exact h.not_served_of_stamps h.registered.missingWanted hp ⟨r, hr, rfl, hsv⟩
    · exact h.not_served_of_stamps h.registered.missingReferences hp ⟨r, hr, rfl, hsv⟩

section

variable (hcurrent : current ≠ ∅)
include hcurrent

theorem reopen : Rested (w.reopen current) := by
  have hsv : w.journal.resolved.filter (isLive (w.tenantGeneration + 1)) =
      w.journal.resolved.filter isServed :=
    filter_congr fun r hr => isLive_succ h.registered hr
  refine ⟨h.registered.reopen, fun p => ?_, ?_, ?_, ?_, ?_, ?_, ?_, h.enqueued⟩
  · rw [h.mem_visited_reopen]
    refine exists_congr fun r => and_congr_right fun hr => and_congr_right fun _ => ?_
    rw [show (w.reopen current).tenantGeneration = w.tenantGeneration + 1 from rfl,
      isLive_succ h.registered hr]
  · refine List.Nodup.sublist (List.Sublist.map _ ?_) h.nodup
    change List.Sublist (w.journal.resolved.filter (isLive (w.tenantGeneration + 1))) _
    rw [hsv]
    refine monotone_filter_right _ fun r hr => ?_
    simp [isLive, hr]
  · intro r hr q hq
    rw [h.mem_visited_reopen]
    rcases h.closed r hr q hq with hv | hrs | hs
    · obtain ⟨r', hr', rfl, hl⟩ := (h.mem_visited q).mp hv
      rw [isLive, Bool.or_eq_true, Bool.and_eq_true, decide_eq_true_eq] at hl
      rcases hl with hl | hl
      · exact .inl ⟨r', hr', rfl, hl⟩
      · rcases h.mem_missing hr' hl.1 hl.2 with hm | hm
        · exact .inr (.inr hm.2)
        · exact .inr (.inl (mem_append_right _ hm))
    · exact .inr (.inl (mem_append_left _ hrs))
    · exact .inr (.inr hs)
  · intro r hr hg
    have hle := h.registered.generations r hr
    rw [show (w.reopen current).tenantGeneration = w.tenantGeneration + 1 from rfl] at hg
    omega
  · simp [Walk.reopen]
  · intro T hT
    rcases mem_append.mp hT with hT | hT
    · exact h.tenants T hT
    · rwa [mem_singleton.mp hT]
  · exact (Finset.card_le_card Finset.sdiff_subset).trans h.card

theorem keep (hgr : ¬(¬current ⊆ w.lastTenants ∧ w.lastTenants ≠ ∅)) :
    Rested { w with lastTenants := current, journal.reads := w.journal.reads ++ [current] } := by
  refine ⟨h.registered.frame, h.mem_visited, h.nodup, h.closed, ?_, ?_, ?_, h.card, h.enqueued⟩
  · intro r hr hg
    obtain ⟨T, hT, hla⟩ := h.consulted r hr hg
    have hlt := (List.getElem?_eq_some_iff.mp hT).1
    have hne : w.journal.reads ≠ [] := ne_nil_of_length_pos (Nat.zero_lt_of_lt hlt)
    have hl : w.lastTenants = w.journal.reads.getLast hne := by
      rw [h.lastTenants, getLast?_eq_getLast_of_ne_nil hne, Option.getD_some]
    have hs : current ⊆ w.journal.reads.getLast hne := by
      rw [← hl]
      by_contra hn
      exact hgr ⟨hn, hl ▸ h.tenants _ (getLast_mem hne)⟩
    refine ⟨T, by rw [getElem?_append_left hlt, hT], fun j T' hj hT' => ?_⟩
    rcases lt_trichotomy j w.journal.reads.length with hj' | rfl | hj'
    · rw [getElem?_append_left hj'] at hT'
      exact hla j T' hj hT'
    · rw [getElem?_concat_length] at hT'
      cases hT'
      refine hs.trans (hla (w.journal.reads.length - 1) _ (by omega) ?_)
      rw [← getLast?_eq_getElem?, getLast?_eq_getLast_of_ne_nil hne]
    · rw [getElem?_eq_none (by rw [length_append]; exact hj')] at hT'
      cases hT'
  · simp
  · intro T hT
    rcases mem_append.mp hT with hT | hT
    · exact h.tenants T hT
    · rwa [mem_singleton.mp hT]

theorem observe : Rested (w.observeTenants current) := by
  by_cases hg : ¬current ⊆ w.lastTenants ∧ w.lastTenants ≠ ∅
  · rw [observeTenants_of_grew h.registered hg.1 hg.2]
    exact h.reopen hcurrent
  · rw [observeTenants_of_not_grew hg]
    exact h.keep hcurrent hg

end

theorem read (wanted : Finset String) (first : Bool) :
    Rested { w with lastWanted := wanted, firstIteration := first } :=
  { h with registered := h.registered.frame }

theorem drive (hre : w.journal.reads ≠ [])
    (hd : Driving { w with reseedReferences := [] } wanted w.reseedReferences d added)
    (hf : d.frontier = []) (hw : d.window = []) :
    Rested d.walk ∧ d.walk.reseedReferences = [] := by
  have hge := hd.same.tenantGeneration
  have hrs := hd.resolved
  have hps : (added.map fun r => (r.path, r.next)).map Prod.fst = added.map path := by
    simp
  have he := hd.expanding
  rw [hf, hw] at he
  simp only [nil_append, map_nil] at he
  have hl : ∀ r ∈ added, r.isLive w.tenantGeneration := by
    intro r hr
    obtain ⟨-, -, hg, ha⟩ := hd.stamped r hr
    rw [isLive, Bool.or_eq_true, Bool.and_eq_true, decide_eq_true_eq]
    exact ha.imp_right fun hs => ⟨hs, hg⟩
  have hm : ∀ p, p ∈ d.walk.visited ↔ p ∈ w.visited ∨ p ∈ added.map path := by
    intro p
    rw [he.mem_visited, hps, nil_append]
  refine ⟨⟨hd.registered, ?_, ?_, ?_, ?_, ?_, ?_, hd.card, ?_⟩, hd.same.reseedReferences⟩
  · intro p
    rw [hm, h.mem_visited, hge, hrs]
    simp only [mem_append, or_and_right, exists_or, mem_map]
    refine or_congr Iff.rfl (exists_congr fun r => ?_)
    exact ⟨fun hr => ⟨hr.1, hr.2, hl r hr.1⟩, fun hr => ⟨hr.1, hr.2.1⟩⟩
  · rw [hge, hrs, filter_append, filter_eq_self.mpr hl, map_append]
    refine nodup_append.mpr ⟨h.nodup, hps ▸ he.nodup, ?_⟩
    rintro p hp q hq rfl
    obtain ⟨r, hr, rfl⟩ := mem_map.mp hp
    rw [mem_filter] at hr
    exact he.fresh _ (hps ▸ hq) ((h.mem_visited _).mpr ⟨r, hr.1, rfl, hr.2⟩)
  · intro r hr q hq
    rw [hrs] at hr
    rcases mem_append.mp hr with hr | hr
    · rcases h.closed r hr q hq with hv | hres | ⟨r', hr', hs⟩
      · exact .inl ((hm q).mpr (.inl hv))
      · exact .inl (he.seeded q (mem_append_right _ hres))
      · exact .inr (.inr ⟨r', hrs ▸ mem_append_left _ hr', hs⟩)
    · exact .inl (he.closed (r.path, r.next) (mem_map_of_mem hr) q hq)
  · intro r hr hg
    rw [hd.same.reads]
    rw [hrs] at hr
    rw [hge] at hg
    rcases mem_append.mp hr with hr | hr
    · exact h.consulted r hr hg
    · have hle : r.iteration = w.journal.reads.length - 1 := (hd.stamped r hr).2.1
      have hla : w.journal.reads[w.journal.reads.length - 1]? =
          some (w.journal.reads.getLast hre) := by
        rw [← getLast?_eq_getElem?, getLast?_eq_getLast_of_ne_nil hre]
      refine ⟨w.journal.reads.getLast hre, hle ▸ hla, fun j T' hj hT' => ?_⟩
      have hj' := (List.getElem?_eq_some_iff.mp hT').1
      have hjl : j = w.journal.reads.length - 1 := by
        change j < w.journal.reads.length at hj'
        omega
      rw [hjl, hla] at hT'
      exact (Option.some.inj hT').symm.subset
  · rw [hd.same.lastTenants, hd.same.reads]
    exact h.lastTenants
  · rw [hd.same.reads]
    exact h.tenants
  · have hen := hd.enqueued
    rw [hf, hw] at hen
    rw [hrs]
    exact hen.trans (by simpa using h.enqueued.append_right _)

end

end Rested

def MaterializationOutcome.IsInterrupted : MaterializationOutcome → Prop
  | .infraFailure (.staleVerdict _ _) => False
  | .infraFailure _ => True
  | .retryLater .. => True
  | _ => False

theorem isInterrupted_of_foldAbortEvidence (h : foldAbortEvidence evidence = some o) :
    o.IsInterrupted := by
  simp only [foldAbortEvidence, Option.bind_eq_bind, Option.bind_eq_some_iff] at h
  obtain ⟨tier, -, rep, -, h⟩ := h
  cases hg : rep.grade with
  | charge detail | transient label detail retryAfter =>
    rw [hg] at h
    cases h
    exact trivial

def Walk.opened (w : Walk) (tenants : List Uuid) (wanted : List String) : Walk :=
  { w.observeTenants tenants.toFinset with lastWanted := wanted.toFinset, firstIteration := false }

def Walk.newSeeds (w : Walk) (wanted : List String) : List String :=
  wanted.filter (· ∉ w.visited)

def Walk.driveFrom (w : Walk) (wanted : List String) : Drive :=
  Drive.enqueueAll { walk := { w with reseedReferences := [] } }
    (seeds (w.newSeeds wanted) w.reseedReferences)

theorem openIteration_spec (w : Walk) (tenants : Option (List Uuid))
    (wanted : Option (List String)) : (∃ cause, w.openIteration tenants wanted = .failed cause ∧
      (MaterializationOutcome.infraFailure cause).IsInterrupted) ∨
    ∃ ts ws, tenants = some ts ∧ wanted = some ws ∧ ts ≠ [] ∧ w.openIteration tenants wanted =
        if (w.opened ts ws).newSeeds ws = [] ∧ (w.opened ts ws).reseedReferences = [] then
          .complete (w.opened ts ws)
        else .walking ((w.opened ts ws).driveFrom ws) := by
  cases tenants with
  | none => exact .inl ⟨_, rfl, trivial⟩
  | some ts =>
    rw [Walk.openIteration]
    by_cases ht : ts = []
    · exact .inl ⟨_, if_pos (by simp [ht]), trivial⟩
    · rw [if_neg (by simp [ht])]
      cases wanted with
      | none => exact .inl ⟨_, rfl, trivial⟩
      | some ws =>
        dsimp only
        split
        · exact .inl ⟨_, rfl, trivial⟩
        · refine .inr ⟨ts, ws, rfl, rfl, ht, ?_⟩
          simp only [Bool.and_eq_true, List.isEmpty_iff]
          rfl

structure Exhausted (w : Walk) : Prop extends Rested w where
  reseedReferences : w.reseedReferences = []
  lastWanted : ∀ p ∈ w.lastWanted, p ∈ w.visited

namespace Rested

variable {w : Walk}

theorem opened (h : Rested w) (ht : ts ≠ []) (ws : List String) : Rested (w.opened ts ws) := by
  refine (h.observe ?_).read _ _
  simpa using ht

theorem reads_opened : (w.opened ts ws).journal.reads = w.journal.reads ++ [ts.toFinset] := by
  simp only [Walk.opened, Walk.observeTenants]
  split <;> rfl

theorem resolved_opened : (w.opened ts ws).journal.resolved = w.journal.resolved := by
  simp only [Walk.opened, Walk.observeTenants]
  split <;> rfl

theorem exhausted (h : Rested w) (ht : ts ≠ []) (hn : (w.opened ts ws).newSeeds ws = [])
    (hr : (w.opened ts ws).reseedReferences = []) : Exhausted (w.opened ts ws) := by
  refine ⟨h.opened ht ws, hr, fun p hp => ?_⟩
  have hp : p ∈ ws := mem_toFinset.mp hp
  by_contra hno
  have hm : p ∈ (w.opened ts ws).newSeeds ws := by simp [Walk.newSeeds, hp, hno]
  rw [hn] at hm
  cases hm

theorem iterate {events : List DriveEvent} (h : Rested w) (ht : ts ≠ [])
    (hs : events.foldlM (Drive.step fanout) ((w.opened ts ws).driveFrom ws) = some d)
    (hf : d.finished) (ha : d.walkAbort = none) :
    Rested d.walk ∧ d.walk.reseedReferences = [] ∧ ∃ added,
      Driving { w.opened ts ws with reseedReferences := [] } ((w.opened ts ws).newSeeds ws)
        (w.opened ts ws).reseedReferences d added ∧ d.frontier = [] ∧ d.window = [] ∧
      added.map told = events.filterMap DriveEvent.answered := by
  have ho := h.opened ht ws
  have hsta : ((w.opened ts ws).driveFrom ws).walkAbort = none := by
    by_contra hso
    have := Drive.isSome_steps (Option.isSome_iff_ne_none.mpr hso) hs
    rw [ha] at this
    cases this
  have hre : Registered { w.opened ts ws with reseedReferences := [] } := ho.registered.frame
  obtain ⟨added, hd, had⟩ :=
    (Driving.start hre ho.card hsta).steps hs ha
  have he : d.window = [] ∧ d.frontier = [] := by
    simpa [Drive.finished, ha] using hf
  obtain ⟨hres, hrs⟩ := ho.drive (by simp [reads_opened]) hd he.2 he.1
  exact ⟨hres, hrs, added, hd, he.2, he.1, had⟩

end Rested

def Iteration.entries (it : Iteration) : List (String × PathCell × PathAnswer) :=
  (it.events.filterMap DriveEvent.answered).map fun x =>
    (x.1, seedCell (it.wanted.getD []) x.1, x.2)

theorem map_entry (hd : Driving w₀ (wanted.filter (· ∉ w₀.visited)) reseeds d added) :
    added.map entry = (added.map told).map fun x => (x.1, seedCell wanted x.1, x.2) := by
  rw [map_map]
  refine map_congr_left fun r hr => ?_
  have hn : r.path ∉ w₀.visited := by
    refine hd.expanding.fresh _ (mem_append_right _ ?_)
    rw [map_map]
    exact mem_map_of_mem hr
  have hc : seedCell (wanted.filter (· ∉ w₀.visited)) r.path = seedCell wanted r.path :=
    if_congr (by simp [hn]) rfl rfl
  simp only [Function.comp, entry, told, (hd.stamped r hr).1, hc]

/-- One iteration returns, whatever follows, or cannot go this way, or leaves a walk at rest. -/
theorem execute_iteration (fanout : Nat) (h : Rested w) (it : Iteration) :
    (∃ o w', o.IsInterrupted ∧ ∀ its, execute fanout w (it :: its) = some (o, w')) ∨
    (∃ ts ws, it.wanted = some ws ∧ Exhausted (w.opened ts ws) ∧ ∀ its,
      execute fanout w (it :: its) = some ((w.opened ts ws).outcome, w.opened ts ws)) ∨
    (∀ its, execute fanout w (it :: its) = none) ∨
    ∃ w', Rested w' ∧
      w'.journal.resolved.map entry = w.journal.resolved.map entry ++ it.entries ∧
      ∀ its, execute fanout w (it :: its) = execute fanout w' its := by
  simp only [execute]
  rcases openIteration_spec w it.tenants it.wanted with
    ⟨cause, hop, hc⟩ | ⟨ts, ws, ht, hw, hne, hop⟩
  · rw [hop]
    exact .inl ⟨_, w, hc, fun _ => rfl⟩
  · rw [hop]
    by_cases hd : (w.opened ts ws).newSeeds ws = [] ∧ (w.opened ts ws).reseedReferences = []
    · rw [if_pos hd]
      exact .inr (.inl ⟨ts, ws, hw, h.exhausted hne hd.1 hd.2, fun _ => rfl⟩)
    · simp only [if_neg hd]
      cases hs : it.events.foldlM (Drive.step fanout) ((w.opened ts ws).driveFrom ws) with
      | none => exact .inr (.inr (.inl fun _ => rfl))
      | some d =>
        simp only [Option.bind_eq_bind, Option.bind_some]
        by_cases hf : d.finished
        · simp only [if_pos hf]
          cases ha : d.walkAbort with
          | none =>
            obtain ⟨hr, -, added, hdr, -, -, hto⟩ := h.iterate hne hs hf ha
            refine .inr (.inr (.inr ⟨d.walk, hr, ?_, fun _ => rfl⟩))
            have hj : (w.opened ts ws).journal.resolved = _ := Rested.resolved_opened
            rw [hdr.resolved, map_append, map_entry hdr, hto, Iteration.entries, hw]
            exact congrArg (·.map entry ++ _) hj
          | some evidence =>
            cases ho : foldAbortEvidence evidence with
            | none => exact .inr (.inr (.inl fun _ => by simp [ho]))
            | some o =>
              exact .inl ⟨o, d.walk, isInterrupted_of_foldAbortEvidence ho, fun _ => by simp [ho]⟩
        · exact .inr (.inr (.inl fun _ => if_neg hf))

theorem execute_cases (h : Rested w) (hr : execute fanout w its = some (o, w')) :
    o.IsInterrupted ∨ o = w'.outcome ∧ Exhausted w' := by
  induction its generalizing w with
  | nil => cases hr
  | cons it its ih =>
    rcases execute_iteration fanout h it with
      ⟨o', w₁, hi, he⟩ | ⟨ts, ws, -, hx, he⟩ | he | ⟨w₁, h₁, -, he⟩
    all_goals rw [he] at hr
    · cases hr
      exact .inl hi
    · cases hr
      exact .inr ⟨rfl, hx⟩
    · cases hr
    · exact ih h₁ hr

theorem execute_last (h : Rested w) (hgo : execute fanout w its = none)
    (hr : execute fanout w (its ++ [last]) = some (o, w')) : o.IsInterrupted ∨
      (∃ ws, last.wanted = some ws ∧ w'.lastWanted = ws.toFinset) ∧
      w'.journal.resolved.map entry =
        w.journal.resolved.map entry ++ its.flatMap Iteration.entries := by
  induction its generalizing w with
  | nil =>
    rw [nil_append] at hr
    rcases execute_iteration fanout h last with
      ⟨o', w₁, hi, he⟩ | ⟨ts, ws, hw, -, he⟩ | he | ⟨w₁, -, -, he⟩
    all_goals rw [he] at hr
    · cases hr
      exact .inl hi
    · cases hr
      exact .inr ⟨⟨ws, hw, rfl⟩, by simp [Rested.resolved_opened]⟩
    · cases hr
    · cases hr
  | cons it its ih =>
    rw [cons_append] at hr
    rcases execute_iteration fanout h it with
      ⟨o', w₁, hi, he⟩ | ⟨ts, ws, hw, -, he⟩ | he | ⟨w₁, h₁, hj, he⟩
    · cases hgo.symm.trans (he its)
    · cases hgo.symm.trans (he its)
    · cases hr.symm.trans (he _)
    · rw [he] at hgo hr
      refine (ih h₁ hgo hr).imp_right (And.imp_right fun hj' => ?_)
      rw [hj', hj, flatMap_cons, append_assoc]

theorem mem_liveRooted (h : Registered w) : p ∈ w.liveRooted ↔ w.Reached p := by
  have hs : Search.Succ (fun p => some (w.children p)) = w.Refers := by
    funext p q
    simp [Search.Succ, Walk.Refers, h.edges]
  have hst : Search.Visiting (fun p => some (w.children p)) w.lastWanted
      w.lastWanted w.lastWanted.sort.reverse := by
    refine ⟨⟨subset_rfl, fun x hx => ⟨x, hx, .refl⟩, ?_⟩, by simp, ?_, by simp⟩
    · rintro x ⟨hx, hsk⟩
      simp [Finset.mem_coe.mp hx] at hsk
    · exact nodup_reverse.mpr (Finset.sort_nodup _ _)
  have ha : ∀ x next, some (w.children x) = some next → ∀ y ∈ next,
      y ∈ w.walkedEdges.keys.biUnion fun p => (w.children p).toFinset := by
    rintro x next ⟨⟩ y hy
    refine Finset.mem_biUnion.mpr ⟨x, ?_, mem_toFinset.mpr hy⟩
    by_contra hx
    rw [Finmap.mem_keys, ← Finmap.lookup_eq_none] at hx
    simp [Walk.children, hx] at hy
  have hc : (w.walkedEdges.keys.biUnion fun p => (w.children p).toFinset).card ≤
      w.walkedEdges.keys.sum fun p => (w.children p).length :=
    Finset.card_biUnion_le.trans (Finset.sum_le_sum fun p _ => toFinset_card_le _)
  have hf : ((w.walkedEdges.keys.biUnion fun p => (w.children p).toFinset) \
        w.lastWanted).card + w.lastWanted.sort.reverse.length ≤
      w.lastWanted.card + w.walkedEdges.keys.sum fun p => (w.children p).length := by
    rw [length_reverse, Finset.length_sort, add_comm]
    exact Nat.add_le_add_left ((Finset.card_le_card Finset.sdiff_subset).trans hc) _
  have hv := hst.visit _ ha hf
  rw [Walk.liveRooted]
  split
  · rename_i live hl
    rw [hl] at hv
    rw [hv.mem_iff, hs]
    rfl
  · rename_i x hx
    rw [hx] at hv
    cases hv.1

theorem staleCell_eq_none (h : Registered w) : w.staleCell = none := by
  have hg : ∀ select (cells : GenStampedCells), cells.cells =
      w.journal.resolved.filterMap (stamp select w.tenantGeneration) →
      cells.foldGuard w.tenantGeneration = .ok () := by
    intro select cells hc
    have hn : cells.cells.find? (·.2 ≠ w.tenantGeneration) = none := by
      rw [find?_eq_none, hc]
      intro x hx
      obtain ⟨r, -, hr⟩ := mem_filterMap.mp hx
      simp [(stamp_eq_some.mp hr).1]
    rw [GenStampedCells.foldGuard, hn]
  simp [Walk.staleCell, hg _ _ h.missingWanted,
    hg _ _ h.missingReferences, hg _ _ h.trustRefused, hg _ _ h.contentMismatched]

namespace Exhausted

section

variable (h : Exhausted w)
include h

variable {cells : GenStampedCells}

theorem of_missing
    (hc : cells.cells = w.journal.resolved.filterMap (stamp select w.tenantGeneration))
    (hp : p ∈ cells.paths) : ¬w.Served p ∧ ∃ r ∈ w.journal.resolved, r.path = p ∧ r.isSettled ∧
      ∃ T, w.journal.reads[r.iteration]? = some T ∧
        ∀ j T', r.iteration ≤ j → w.journal.reads[j]? = some T' → T' ⊆ T := by
  refine ⟨h.not_served_of_stamps hc hp, ?_⟩
  obtain ⟨r, hr, rfl, hg, t, c, ha, -⟩ := (mem_stamps hc).mp hp
  exact ⟨r, hr, rfl, by rw [isSettled, ha], h.consulted r hr hg⟩

theorem nodup_paths
    (hc : cells.cells = w.journal.resolved.filterMap (stamp select w.tenantGeneration)) :
    cells.paths.Nodup := by
  rw [GenStampedCells.paths, hc]
  refine h.nodup_filterMap fun r _ x hx => ?_
  obtain ⟨rfl, hg, t, c, ha, -⟩ := stamp_eq_some.mp hx
  exact ⟨rfl, by simp [isLive, isSettled, ha, hg]⟩

theorem nodup_covered : (w.ingested ++ w.verified).Nodup := by
  have hsv : ∀ (r : Resolved) x, r.ingestedPath = some x ∨ r.verifiedPath = some x →
      x = r.path ∧ r.isServed := by
    intro r x hx
    unfold ingestedPath verifiedPath at hx
    unfold isServed
    cases ha : r.answer with
    | served references tenants ingested =>
      cases ingested <;> simp [ha] at hx ⊢ <;> exact hx.symm
    | settled | abortGrade => simp [ha] at hx
  have hl : ∀ r : Resolved, r.isServed → r.isLive w.tenantGeneration :=
    fun r hr => by simp [isLive, hr]
  rw [h.registered.ingested, h.registered.verified]
  refine nodup_append.mpr ⟨?_, ?_, ?_⟩
  · simpa using h.nodup_filterMap fun r _ x hx =>
      ⟨(hsv r x (.inl hx)).1, hl r (hsv r x (.inl hx)).2⟩
  · simpa using h.nodup_filterMap fun r _ x hx =>
      ⟨(hsv r x (.inr hx)).1, hl r (hsv r x (.inr hx)).2⟩
  · rintro p hp q hq rfl
    obtain ⟨r, hr, hp⟩ := mem_filterMap.mp hp
    obtain ⟨r', hr', hq⟩ := mem_filterMap.mp hq
    obtain ⟨rfl, hs⟩ := hsv r p (.inl hp)
    obtain ⟨hpa, hs'⟩ := hsv r' _ (.inr hq)
    have heq := h.eq_of_path hr hr' (hl r hs) (hl r' hs') hpa
    subst heq
    unfold ingestedPath at hp
    unfold verifiedPath at hq
    split at hp
    · rename_i ha
      simp [ha] at hq
    · cases hp

theorem served_or_missing (hp : w.Reached p) :
    w.Served p ∨ w.SettledWanted p ∨ p ∈ w.missingReferences.paths := by
  have hv : p ∈ w.visited ∨ w.SettledWanted p := by
    obtain ⟨s, hs, hre⟩ := hp
    cases hre with
    | refl => exact .inl (h.lastWanted p hs)
    | tail _ href =>
      obtain ⟨r, hr, -, hp⟩ := href
      refine (h.closed r hr p hp).imp_right fun ho => ho.resolve_left ?_
      rw [h.reseedReferences]
      exact not_mem_nil
  rcases hv with hv | hse
  · obtain ⟨r, hr, rfl, hl⟩ := (h.mem_visited p).mp hv
    rw [isLive, Bool.or_eq_true, Bool.and_eq_true, decide_eq_true_eq] at hl
    rcases hl with hsv | hse
    · exact .inl ⟨r, hr, rfl, hsv⟩
    · exact .inr ((h.mem_missing hr hse.1 hse.2).imp_left And.right)
  · exact .inr (.inl hse)

end

end Exhausted

section Answers

variable (its : List Iteration)

def ServedIn (p : String) : Prop :=
  ∃ it ∈ its, ∃ references tenants ingested,
    .complete p (.served references tenants ingested) ∈ it.events

def RefersIn (p q : String) : Prop :=
  ∃ it ∈ its, ∃ references tenants ingested,
    .complete p (.served references tenants ingested) ∈ it.events ∧ q ∈ references

def ReachedIn (wanted : List String) (p : String) : Prop :=
  ∃ s ∈ wanted, Relation.ReflTransGen (RefersIn its) s p

/-- The path is settled in an iteration that wants it. -/
def GivenUp (p : String) : Prop :=
  ∃ it ∈ its, p ∈ it.wanted.getD [] ∧ ∃ t c, .complete p (.settled t c) ∈ it.events

end Answers

section Told

variable {w : Walk} {its : List Iteration}
  (h : w.journal.resolved.map entry = its.flatMap Iteration.entries)
include h

theorem exists_resolved (P : String → PathCell → PathAnswer → Prop) :
    (∃ r ∈ w.journal.resolved, P r.path r.cell r.answer) ↔ ∃ it ∈ its, ∃ p answer,
      .complete p answer ∈ it.events ∧ P p (seedCell (it.wanted.getD []) p) answer := by
  have hm : (∃ r ∈ w.journal.resolved, P r.path r.cell r.answer) ↔
      ∃ x ∈ w.journal.resolved.map entry, P x.1 x.2.1 x.2.2 := by
    simp [entry]
  rw [hm, h]
  simp only [Iteration.entries, mem_flatMap, mem_map, mem_answered]
  constructor
  · rintro ⟨_, ⟨it, hi, x, hx, rfl⟩, hp⟩
    exact ⟨it, hi, x.1, x.2, hx, hp⟩
  · rintro ⟨it, hi, p, answer, hx, hp⟩
    exact ⟨_, ⟨it, hi, (p, answer), hx, rfl⟩, hp⟩

theorem served_iff : w.Served p ↔ ServedIn its p := by
  refine (exists_resolved h fun q _ a => q = p ∧ Resolved.isServed ⟨q, .wanted, 0, 0, a⟩).trans ?_
  refine exists_congr fun it => and_congr_right fun _ => ?_
  constructor
  · rintro ⟨_, answer, hm, rfl, hs⟩
    cases answer with
    | served references tenants ingested => exact ⟨references, tenants, ingested, hm⟩
    | settled | abortGrade => cases hs
  · rintro ⟨references, tenants, ingested, hm⟩
    exact ⟨p, _, hm, rfl, rfl⟩

theorem refers_iff : w.Refers p q ↔ RefersIn its p q := by
  refine (exists_resolved h fun x _ a => x = p ∧ q ∈ next ⟨x, .wanted, 0, 0, a⟩).trans ?_
  refine exists_congr fun it => and_congr_right fun _ => ?_
  constructor
  · rintro ⟨_, answer, hm, rfl, hq⟩
    cases answer with
    | served references tenants ingested => exact ⟨references, tenants, ingested, hm, hq⟩
    | settled | abortGrade => cases hq
  · rintro ⟨references, tenants, ingested, hm, hq⟩
    exact ⟨p, _, hm, rfl, hq⟩

theorem settledWanted_iff : w.SettledWanted p ↔ GivenUp its p := by
  refine (exists_resolved h fun q cell a =>
    q = p ∧ Resolved.isSettled ⟨q, .wanted, 0, 0, a⟩ ∧ cell = .wanted).trans ?_
  refine exists_congr fun it => and_congr_right fun _ => ?_
  have hc : seedCell (it.wanted.getD []) p = .wanted ↔ p ∈ it.wanted.getD [] := by
    simp [seedCell]
  constructor
  · rintro ⟨_, answer, hm, rfl, hs, hw⟩
    cases answer with
    | settled t c => exact ⟨hc.mp hw, t, c, hm⟩
    | served | abortGrade => cases hs
  · rintro ⟨hw, t, c, hm⟩
    exact ⟨p, _, hm, rfl, rfl, hc.mpr hw⟩

theorem reached_iff (hw : w.lastWanted = wanted.toFinset) :
    w.Reached p ↔ ReachedIn its wanted p := by
  have hr : w.Refers = RefersIn its := by
    funext p q
    exact propext (refers_iff h)
  simp only [Walk.Reached, ReachedIn, hr, hw, mem_toFinset]

end Told

/-- A success is a complete closure exactly if no path that was given up while it was wanted, and
never served, is within reach of what is wanted last: such a miss is dropped once the path is no
longer wanted, whatever still refers to it. -/
theorem success_complete_iff {fanout : Nat} {its : List Iteration} {last : Iteration}
    {wanted ingested verified : List String} {tenants : List (String × List Uuid)} {w : Walk}
    (hgo : execute fanout {} its = none) (hlast : last.wanted = some wanted)
    (hrun : execute fanout {} (its ++ [last]) = some (.success ingested verified tenants, w)) :
    (ingested ++ verified).Nodup ∧
      ((∀ p, ReachedIn its wanted p → ServedIn its p) ↔
        ∀ p, GivenUp its p → ¬ServedIn its p → ¬ReachedIn its wanted p) := by
  obtain ⟨ho, h⟩ := (execute_cases Rested.init hrun).resolve_left id
  obtain ⟨⟨ws, hws, hw⟩, hj⟩ := (execute_last Rested.init hgo hrun).resolve_left id
  cases hlast.symm.trans hws
  rw [Walk.outcome, staleCell_eq_none h.registered] at ho
  dsimp only at ho
  split at ho
  · rename_i he
    cases ho
    refine ⟨h.nodup_covered, fun ha p _ hs hp => hs (ha p hp), fun hg p hp => ?_⟩
    have hp' := (reached_iff hj hw).mpr hp
    rcases h.served_or_missing hp' with hsv | hs | hm
    · exact (served_iff hj).mp hsv
    · exact not_not.mp fun hn => hg p ((settledWanted_iff hj).mp hs) hn hp
    · simp only [Bool.and_eq_true, List.isEmpty_iff] at he
      have hl : p ∈ w.liveMissingReferences :=
        mem_filter.mpr ⟨hm, decide_eq_true ((mem_liveRooted h.registered).mpr hp')⟩
      rw [he.2] at hl
      cases hl
  · cases ho

/-- The second path is wanted with the first one, missing, and no longer wanted by the end. -/
def missedAside : List Iteration :=
  [⟨some [1], some ["q", "m"],
    [.spawn, .complete "q" (.served ["p"] [1] true), .spawn, .complete "m" (.settled false false),
      .spawn, .complete "p" (.served [] [1] false)]⟩]

theorem success_complete_iff_missedAside :
    (execute 1 {} (missedAside ++ [⟨some [1], some ["q"], []⟩])).map Prod.fst =
        some (.success ["q"] ["p"] [("q", [1]), ("p", [1])]) ∧
      GivenUp missedAside "m" ∧
      ∀ p, ReachedIn missedAside ["q"] p → ServedIn missedAside p := by
  have hgo : execute 1 {} missedAside = none := Option.isNone_iff_eq_none.mp (by decide +kernel)
  have hru : (execute 1 {} (missedAside ++ [⟨some [1], some ["q"], []⟩])).map Prod.fst =
      some (.success ["q"] ["p"] [("q", [1]), ("p", [1])]) := by
    decide +kernel
  obtain ⟨⟨o, w⟩, hrun, rfl⟩ := Option.map_eq_some_iff.mp hru
  refine ⟨hru, ⟨_, mem_cons_self, by decide, false, false, by decide⟩, ?_⟩
  refine (success_complete_iff hgo rfl hrun).2.mpr fun p hg _ hp => ?_
  have hm : p = "m" := by
    obtain ⟨it, hi, -, t, c, hc⟩ := hg
    cases mem_singleton.mp hi
    simp only [mem_cons, DriveEvent.complete.injEq, PathAnswer.settled.injEq, reduceCtorEq,
      and_false, not_mem_nil, or_self, or_false, false_or] at hc
    exact hc.1
  have hq : p = "q" ∨ p = "p" := by
    obtain ⟨s, hs, hre⟩ := hp
    cases hre with
    | refl => exact .inl (mem_singleton.mp hs)
    | tail _ href =>
      obtain ⟨it, hi, references, tenants, ingested, hc, hr⟩ := href
      cases mem_singleton.mp hi
      have hl : references = ["p"] ∨ references = [] := by
        simp only [mem_cons, DriveEvent.complete.injEq, PathAnswer.served.injEq, reduceCtorEq,
          and_false, not_mem_nil, or_false, false_or] at hc
        exact hc.imp (·.2.1) (·.2.1)
      rcases hl with rfl | rfl
      · exact .inr (mem_singleton.mp hr)
      · cases hr
  simp [hm] at hq

/-- Two outputs are wanted, one refers to the other, which is missing and then no longer wanted. -/
def departedWant : List Iteration :=
  [⟨some [1], some ["p", "q"],
    [.spawn, .complete "p" (.settled false false), .spawn, .complete "q" (.served ["p"] [1] true)]⟩]

theorem success_over_missing :
    execute 1 {} departedWant = none ∧
    (execute 1 {} (departedWant ++ [⟨some [1], some ["q"], []⟩])).map Prod.fst =
        some (.success ["q"] [] [("q", [1])]) ∧
      ReachedIn departedWant ["q"] "p" ∧ ¬ServedIn departedWant "p" := by
  have hr : RefersIn departedWant "q" "p" :=
    ⟨_, mem_cons_self, ["p"], [1], true, by decide, mem_cons_self⟩
  refine ⟨Option.isNone_iff_eq_none.mp (by decide +kernel), by decide +kernel,
    ⟨"q", mem_cons_self, .single hr⟩, ?_⟩
  rintro ⟨it, hi, references, tenants, ingested, hc⟩
  cases mem_singleton.mp hi
  simp at hc

theorem unobtainable_live {fanout : Nat} {its : List Iteration} {w : Walk}
    {o : MaterializationOutcome} (hrun : execute fanout {} its = some (o, w)) :
    (∀ registry stale, o ≠ .infraFailure (.staleVerdict registry stale)) ∧
    ∀ missing covered missingReferences refusal echo,
      o = .unobtainable missing covered missingReferences refusal echo →
      (∀ p ∈ missing, p ∈ w.lastWanted) ∧ (∀ p ∈ missingReferences, w.Reached p) ∧
      missing.Nodup ∧ missingReferences.Nodup ∧ ∀ p, p ∈ missing ∨ p ∈ missingReferences →
        ¬w.Served p ∧ ∃ r ∈ w.journal.resolved, r.path = p ∧ r.isSettled ∧
          ∃ T, w.journal.reads[r.iteration]? = some T ∧
            ∀ j T', r.iteration ≤ j → w.journal.reads[j]? = some T' → T' ⊆ T := by
  rcases execute_cases Rested.init hrun with hi | ⟨rfl, h⟩
  · constructor
    · rintro registry stale rfl
      exact hi
    · rintro missing covered missingReferences refusal echo rfl
      exact hi.elim
  · rw [Walk.outcome, staleCell_eq_none h.registered]
    dsimp only
    split
    · exact ⟨fun _ _ => MaterializationOutcome.noConfusion, by rintro _ _ _ _ _ ⟨⟩⟩
    · refine ⟨fun _ _ => MaterializationOutcome.noConfusion, ?_⟩
      rintro _ _ _ _ _ ⟨⟩
      refine ⟨?_, ?_, ?_, ?_, ?_⟩
      · intro p hp
        simpa using (mem_filter.mp hp).2
      · intro p hp
        exact (mem_liveRooted h.registered).mp (by simpa using (mem_filter.mp hp).2)
      · exact (h.nodup_paths h.registered.missingWanted).filter _
      · exact (h.nodup_paths h.registered.missingReferences).filter _
      · rintro p (hp | hp)
        · exact h.of_missing h.registered.missingWanted (mem_filter.mp hp).1
        · exact h.of_missing h.registered.missingReferences (mem_filter.mp hp).1

def missingTwice : List Iteration :=
  [⟨some [1], some ["p"], [.spawn, .complete "p" (.settled false false)]⟩,
   ⟨some [1, 2], some ["p"], [.spawn, .complete "p" (.settled true false)]⟩,
   ⟨some [2], some ["p"], []⟩]

theorem unobtainable_live_missingTwice :
    ∃ w, execute 1 {} missingTwice = some (.unobtainable ["p"] [] [] .trust true, w) ∧
      ∃ r ∈ w.journal.resolved, r.path = "p" ∧ r.isSettled ∧
        ∃ T, w.journal.reads[r.iteration]? = some T ∧
          ∀ j T', r.iteration ≤ j → w.journal.reads[j]? = some T' → T' ⊆ T := by
  have hr : (execute 1 {} missingTwice).map Prod.fst =
      some (.unobtainable ["p"] [] [] .trust true) := by
    decide +kernel
  obtain ⟨⟨o, w⟩, hr, rfl⟩ := Option.map_eq_some_iff.mp hr
  obtain ⟨-, -, -, -, hm⟩ := (unobtainable_live hr).2 _ _ _ _ _ rfl
  exact ⟨w, hr, (hm "p" (.inl mem_cons_self)).2⟩

end RioBuild.Materialize
