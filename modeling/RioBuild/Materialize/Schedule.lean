import RioBuild.Materialize.Verdict

namespace RioBuild.Materialize

open Lib List Resolved

structure Script where
  tenants : Nat → List Uuid
  wanted : Nat → List String
  answer : Nat → String → PathAnswer

def Script.Follows (s : Script) (k : Nat) : List Iteration → Prop
  | [] => True
  | it :: its => it.tenants = some (s.tenants k) ∧ it.wanted = some (s.wanted k) ∧
    (∀ p a, .complete p a ∈ it.events → a = s.answer k p) ∧ s.Follows (k + 1) its

def PathAnswer.references : PathAnswer → List String
  | .served references _ _ => references
  | _ => []

theorem Resolved.next_eq (r : Resolved) : r.next = r.answer.references := by
  unfold next PathAnswer.references
  cases r.answer <;> rfl

structure Agree (w w' : Walk) : Prop where
  left : Rested w
  right : Rested w'
  resolved : w.journal.resolved.Perm w'.journal.resolved
  reads : w.journal.reads = w'.journal.reads
  tenantGeneration : w.tenantGeneration = w'.tenantGeneration
  lastTenants : w.lastTenants = w'.lastTenants
  lastWanted : w.lastWanted = w'.lastWanted
  firstIteration : w.firstIteration = w'.firstIteration
  reseedReferences : w.reseedReferences.Perm w'.reseedReferences

namespace Agree

section

variable (h : Agree w w')
include h

theorem visited : w.visited = w'.visited := by
  ext p
  simp [h.left.mem_visited, h.right.mem_visited, h.resolved.mem_iff, h.tenantGeneration]

theorem filterMap (f : Nat → Resolved → Option α) :
    (w.journal.resolved.filterMap (f w.tenantGeneration)).Perm
      (w'.journal.resolved.filterMap (f w'.tenantGeneration)) := by
  rw [h.tenantGeneration]
  exact h.resolved.filterMap _

theorem paths {cells cells' : GenStampedCells}
    (hc : cells.cells = w.journal.resolved.filterMap (stamp select w.tenantGeneration))
    (hc' : cells'.cells = w'.journal.resolved.filterMap (stamp select w'.tenantGeneration)) :
    cells.paths.Perm cells'.paths := by
  rw [GenStampedCells.paths, GenStampedCells.paths, hc, hc']
  exact (h.filterMap (stamp select)).map _

theorem missingReferences : w.missingReferences.paths.Perm w'.missingReferences.paths :=
  h.paths h.left.registered.missingReferences h.right.registered.missingReferences

theorem opened (ht : ts ≠ []) (ws : List String) : Agree (w.opened ts ws) (w'.opened ts ws) := by
  have hl := h.left.opened ht ws
  have hr := h.right.opened ht ws
  have hre : (w.opened ts ws).journal.reads = (w'.opened ts ws).journal.reads := by
    rw [Rested.reads_opened, Rested.reads_opened, h.reads]
  by_cases hg : ¬ts.toFinset ⊆ w.lastTenants ∧ w.lastTenants ≠ ∅
  · have hg' := hg
    rw [h.lastTenants] at hg'
    have hw := observeTenants_of_grew h.left.registered hg.1 hg.2
    have hw' := observeTenants_of_grew h.right.registered hg'.1 hg'.2
    refine ⟨hl, hr, ?_, hre, ?_, ?_, rfl, rfl, ?_⟩
    · simp only [Walk.opened, hw, hw']
      exact h.resolved
    · simp only [Walk.opened, hw, hw']
      exact congrArg (· + 1) h.tenantGeneration
    · rfl
    · simp only [Walk.opened, hw, hw']
      exact h.reseedReferences.append h.missingReferences
  · have hg' := hg
    rw [h.lastTenants] at hg'
    have hw := observeTenants_of_not_grew hg
    have hw' := observeTenants_of_not_grew hg'
    refine ⟨hl, hr, ?_, hre, ?_, ?_, rfl, rfl, ?_⟩ <;> simp only [Walk.opened, hw, hw']
    · exact h.resolved
    · exact h.tenantGeneration
    · exact h.reseedReferences

theorem newSeeds (ws : List String) : w.newSeeds ws = w'.newSeeds ws := by
  rw [Walk.newSeeds, Walk.newSeeds, h.visited]

theorem complete_iff : w.newSeeds ws = [] ∧ w.reseedReferences = [] ↔
    w'.newSeeds ws = [] ∧ w'.reseedReferences = [] := by
  rw [h.newSeeds, ← length_eq_zero_iff, ← length_eq_zero_iff, ← length_eq_zero_iff,
    h.reseedReferences.length_eq]

end

end Agree

section Drive

variable {w₀ : Walk} {d : Drive} {answer : String → PathAnswer}

section

variable (h : Driving w₀ wanted reseeds d added)
include h

theorem Driving.eq_record (hr : r ∈ added) (ha : r.answer = answer r.path) :
    r = ⟨r.path, seedCell wanted r.path, w₀.iteration, w₀.tenantGeneration, answer r.path⟩ := by
  obtain ⟨hc, hi, hg, -⟩ := h.stamped r hr
  rw [← hc, ← hi, ← hg, ← ha]

theorem Driving.mem_paths (hf : d.frontier = [])
    (hw : d.window = []) (ha : ∀ r ∈ added, r.answer = answer r.path) :
    (added.map path).Nodup ∧ ∀ p, p ∈ added.map path ↔
      Window.Reach (fun x y => y ∈ (answer x).references) w₀.visited (wanted ++ reseeds) p := by
  have he := h.expanding
  simp only [hf, hw] at he
  have hp : (added.map fun r => (r.path, r.next)).map Prod.fst = added.map path := by
    simp
  refine ⟨hp ▸ he.nodup, fun p => ?_⟩
  rw [← hp]
  refine he.mem_done_iff fun x hx y => ?_
  obtain ⟨r, hr, rfl⟩ := mem_map.mp hx
  rw [← ha r hr, ← r.next_eq]

theorem Driving.perm_added
    (h' : Driving w₀' wanted reseeds' d' added') (hpe : d.frontier = [] ∧ d.window = [])
    (hpe' : d'.frontier = [] ∧ d'.window = []) (hv : w₀.visited = w₀'.visited)
    (hi : w₀.iteration = w₀'.iteration)
    (hg : w₀.tenantGeneration = w₀'.tenantGeneration) (hres : reseeds.Perm reseeds')
    (ha : ∀ r ∈ added, r.answer = answer r.path)
    (ha' : ∀ r ∈ added', r.answer = answer r.path) : added.Perm added' := by
  obtain ⟨hn, hm⟩ := h.mem_paths hpe.1 hpe.2 ha
  obtain ⟨hn', hm'⟩ := h'.mem_paths hpe'.1 hpe'.2 ha'
  have hs : (wanted ++ reseeds).Perm (wanted ++ reseeds') := hres.append_left _
  have hps : (added.map path).Perm (added'.map path) := by
    refine (perm_ext_iff_of_nodup hn hn').mpr fun p => ?_
    rw [hm, hm', hv]
    exact ⟨fun hp => hp.mono hs.subset fun _ _ => id,
      fun hp => hp.mono hs.symm.subset fun _ _ => id⟩
  let record : String → Resolved := fun p =>
    ⟨p, seedCell wanted p, w₀.iteration, w₀.tenantGeneration, answer p⟩
  have hre : ∀ l : List Resolved, (∀ r ∈ l, r = record r.path) → (l.map path).map record = l := by
    intro l hl
    rw [map_map]
    exact (map_congr_left fun r hr => (hl r hr).symm).trans (map_id l)
  rw [← hre added fun r hr => h.eq_record hr (ha r hr), ← hre added' fun r hr => ?_]
  · exact hps.map _
  · simp only [record, hi, hg]
    exact h'.eq_record hr (ha' r hr)

end

variable {events : List DriveEvent}

structure Bounded (answer : String → PathAnswer) (base bound : Finset String) : Prop where
  card : bound.card ≤ closureWalkCap
  closed : ∀ x ∈ bound, x ∉ base → ∀ y ∈ (answer x).references, y ∈ bound
  answers : ∀ x grade, answer x ≠ .abortGrade grade

section

variable (hb : Bounded answer w₀.visited bound)
include hb

section

variable (h : Driving w₀ wanted reseeds d added)
include h

theorem Bounded.complete (hs : d.walk.visited ⊆ bound)
    (hn : d.walkAbort = none) (hx : x ∈ d.window) :
    ({ d with window := d.window.erase x }.applyResolution x (answer x.1)).walkAbort = none ∧
      ({ d with window := d.window.erase x }.applyResolution x (answer x.1)).walk.visited ⊆ bound ∧
      ({ d with window := d.window.erase x }.applyResolution x (answer x.1)).window =
        d.window.erase x := by
  have hm : x.1 ∈ (d.frontier ++ d.window).map Prod.fst ++
      (added.map fun r => (r.path, r.next)).map Prod.fst :=
    mem_append_left _ (mem_map_of_mem (mem_append_right _ hx))
  have hxb : x.1 ∈ bound := hs ((h.expanding.mem_visited _).mpr (.inr hm))
  have hc := hb.closed x.1 hxb (h.expanding.fresh _ hm)
  cases ha : answer x.1 with
  | served references tenants ingested =>
    rw [ha] at hc
    let d₁ : Drive := { d with
      walk := (d.walk.serve x.1 references tenants ingested).logResolved x
        (.served references tenants ingested)
      window := d.window.erase x }
    have hu : d₁.walk.visited ∪ ((references.map (·, PathCell.reference)).map
        Prod.fst).toFinset ⊆ bound := by
      refine Finset.union_subset hs fun y hy => hc y ?_
      change y ∈ references
      simpa using hy
    have hca := (Finset.card_le_card hu).trans hb.card
    change (d₁.enqueueAll (references.map (·, .reference))).walkAbort = none ∧
      (d₁.enqueueAll (references.map (·, .reference))).walk.visited ⊆ bound ∧
      (d₁.enqueueAll (references.map (·, .reference))).window = d.window.erase x
    rw [Drive.enqueueAll_of_card hca]
    exact ⟨hn, hu, rfl⟩
  | settled t c => exact ⟨hn, hs, rfl⟩
  | abortGrade grade => exact absurd ha (hb.answers x.1 grade)

theorem Bounded.step (hsu : d.walk.visited ⊆ bound)
    (hn : d.walkAbort = none) (hs : d.step fanout e = some d')
    (he : ∀ p a, e = .complete p a → a = answer p) :
    d'.walkAbort = none ∧ d'.walk.visited ⊆ bound := by
  cases e with
  | spawn =>
    rw [Drive.step] at hs
    split at hs
    · split at hs
      · cases hs
        exact ⟨hn, hsu⟩
      · cases hs
    · cases hs
  | complete path a =>
    rw [Drive.step] at hs
    split at hs
    · rename_i x hx
      have hp : x.1 = path := by simpa using find?_some hx
      cases hs
      rw [he path a rfl, ← hp]
      obtain ⟨ha, hv, -⟩ := hb.complete h hsu hn (mem_of_find?_eq_some hx)
      exact ⟨ha, hv⟩
    · cases hs

theorem Bounded.steps (hsu : d.walk.visited ⊆ bound)
    (hn : d.walkAbort = none) (hs : events.foldlM (Drive.step fanout) d = some d')
    (he : ∀ p a, .complete p a ∈ events → a = answer p) : d'.walkAbort = none := by
  induction events generalizing d added with
  | nil =>
    cases hs
    exact hn
  | cons e events ih =>
    obtain ⟨d1, hste, hs⟩ := Option.bind_eq_some_iff.mp hs
    obtain ⟨ha1, hsu1⟩ := hb.step h hsu hn hste fun p a hp =>
      he p a (hp ▸ mem_cons_self)
    obtain ⟨added1, h1, -⟩ := h.step hste ha1
    exact ih h1 hsu1 ha1 hs fun p a hp => he p a (mem_cons_of_mem _ hp)

end

end

theorem Driving.length_added (h : Driving w₀ wanted reseeds d added) (hs : d.walk.visited ⊆ bound) :
    (d.frontier ++ d.window).length + added.length ≤ bound.card := by
  have hn := h.expanding.nodup
  have hl := toFinset_card_of_nodup hn
  simp only [length_append, length_map] at hl ⊢
  rw [← hl]
  refine Finset.card_le_card fun p hp => hs ((h.expanding.mem_visited p).mpr (.inr ?_))
  simpa using hp

theorem Bounded.exists_oneAtATime (hb : Bounded answer w₀.visited bound)
    (h : Driving w₀ wanted reseeds d added) (hs : d.walk.visited ⊆ bound)
    (hno : d.walkAbort = none) (hw : d.window = []) : ∃ (events : List DriveEvent) (d' : Drive),
      (∀ p a, .complete p a ∈ events → a = answer p) ∧
      events.foldlM (Drive.step 1) d = some d' ∧ d'.finished := by
  induction hn : bound.card - added.length generalizing d added with
  | zero =>
    have hle := h.length_added hs
    refine ⟨[], d, by simp, rfl, ?_⟩
    have he : (d.frontier ++ d.window).length = 0 := by omega
    rw [length_eq_zero_iff, append_eq_nil_iff] at he
    simp [Drive.finished, he]
  | succ n ih =>
    cases hf : d.frontier with
    | nil => exact ⟨[], d, by simp, rfl, by simp [Drive.finished, hf, hw]⟩
    | cons x rest =>
      let d1 : Drive := { d with frontier := rest, window := d.window ++ [x] }
      have hsp : d.step 1 .spawn = some d1 := by
        simp [Drive.step, hno, hf, hw, d1]
      have h1 := h.spawn hf
      have hx : x ∈ d1.window := mem_append_right _ mem_cons_self
      have hc : d1.step 1 (.complete x.1 (answer x.1)) =
          some ({ d1 with window := d1.window.erase x }.applyResolution x (answer x.1)) := by
        simp [Drive.step, d1, hw]
      obtain ⟨hno2, hs2, hw2⟩ := hb.complete h1 hs hno hx
      have h2 := h1.complete hx hno2
      obtain ⟨events, d', hev, hst, hfi⟩ := ih h2 hs2 hno2
        (hw2.trans (by simp [hw])) (by rw [length_append]; simp; omega)
      refine ⟨.spawn :: .complete x.1 (answer x.1) :: events, d', ?_, ?_, hfi⟩
      · intro p a hp
        rcases mem_cons.mp hp with hp | hp
        · cases hp
        · rcases mem_cons.mp hp with hp | hp
          · cases hp
            rfl
          · exact hev p a hp
      · rw [foldlM_cons, hsp, Option.bind_eq_bind, Option.bind_some, foldlM_cons,
          hc, Option.bind_eq_bind, Option.bind_some, hst]

def Drive.CapLatched (d : Drive) : Prop :=
  d.walkAbort.isSome → closureWalkCap < d.walk.visited.card

theorem Drive.CapLatched.enqueueAll (h : d.CapLatched) (xs : List (String × PathCell)) :
    (d.enqueueAll xs).CapLatched := by
  induction xs generalizing d with
  | nil => exact h
  | cons x xs ih =>
    refine ih ?_
    change (d.enqueuePath x.1 x.2).CapLatched
    unfold enqueuePath
    split
    · exact h
    · dsimp only
      split_ifs with hlt
      · exact fun _ => hlt
      · exact fun hs => (h hs).trans_le (Finset.card_le_card (Finset.subset_insert _ _))

theorem Drive.CapLatched.steps (h : d.CapLatched)
    (hanswers : ∀ x grade, answer x ≠ .abortGrade grade)
    (he : ∀ p a, .complete p a ∈ events → a = answer p)
    (hst : events.foldlM (Drive.step fanout) d = some d') : d'.CapLatched := by
  induction events generalizing d with
  | nil =>
    cases hst
    exact h
  | cons e events ih =>
    obtain ⟨d1, hs, hst⟩ := Option.bind_eq_some_iff.mp hst
    refine ih ?_ (fun p a hp => he p a (mem_cons_of_mem _ hp)) hst
    cases e with
    | spawn =>
      rw [step] at hs
      split at hs
      · split at hs
        · cases hs
          exact h
        · cases hs
      · cases hs
    | complete path a =>
      rw [step] at hs
      split at hs
      · cases hs
        have ha := he path a mem_cons_self
        cases a with
        | served references tenants ingested =>
          refine enqueueAll ?_ _
          exact h
        | settled t c => exact h
        | abortGrade grade => exact absurd ha.symm (hanswers path grade)
      · cases hs

end Drive

namespace Agree

variable {answer : String → PathAnswer} {events events' : List DriveEvent}

theorem bounded (h : Agree w w') (ht : ts ≠ []) (hanswers : ∀ x grade, answer x ≠ .abortGrade grade)
    (hev : ∀ p a, .complete p a ∈ events → a = answer p)
    (hste : events.foldlM (Drive.step fanout) ((w.opened ts ws).driveFrom ws) = some d)
    (hf : d.finished) (hn : d.walkAbort = none) :
    Bounded answer (w'.opened ts ws).visited d.walk.visited ∧
      ((w'.opened ts ws).driveFrom ws).walkAbort = none ∧
      ((w'.opened ts ws).driveFrom ws).window = [] ∧
      ((w'.opened ts ws).driveFrom ws).walk.visited ⊆ d.walk.visited := by
  obtain ⟨-, -, added, hd, hfr, hw, ha⟩ :=
    h.left.iterate ht hste hf hn
  have ho := h.opened ht ws
  have he := hd.expanding
  simp only [hfr, hw, append_nil, map_nil] at he
  have hse : (w'.opened ts ws).visited ∪ ((seeds ((w'.opened ts ws).newSeeds ws)
      (w'.opened ts ws).reseedReferences).map Prod.fst).toFinset ⊆ d.walk.visited := by
    rw [map_fst_seeds, ← ho.visited, ← ho.newSeeds]
    refine Finset.union_subset (fun p hp => (he.mem_visited p).mpr (.inl hp)) fun p hp => ?_
    refine he.seeded p ?_
    rw [mem_toFinset] at hp
    exact (ho.reseedReferences.append_left _).mem_iff.mpr hp
  have hs : (w'.opened ts ws).driveFrom ws =
      Drive.withAdmitted { walk := { w'.opened ts ws with reseedReferences := [] } }
        (seeds ((w'.opened ts ws).newSeeds ws) (w'.opened ts ws).reseedReferences) :=
    Drive.enqueueAll_of_card ((Finset.card_le_card hse).trans hd.card)
  refine ⟨⟨hd.card, ?_, hanswers⟩, by rw [hs]; rfl, by rw [hs]; rfl, ?_⟩
  · intro x hx hba y hy
    rw [← ho.visited] at hba
    have hx := ((he.mem_visited x).mp hx).resolve_left hba
    rw [nil_append, map_map, mem_map] at hx
    obtain ⟨r, hr, rfl⟩ := hx
    refine he.closed (r.path, r.next) (mem_map_of_mem hr) y ?_
    rw [r.next_eq, hev _ _ (complete_mem ha hr)]
    exact hy
  · rw [hs]
    exact hse

theorem iterate (h : Agree w w') (ht : ts ≠ []) (hanswers : ∀ x grade, answer x ≠ .abortGrade grade)
    (he : ∀ p a, .complete p a ∈ events → a = answer p)
    (hs : events.foldlM (Drive.step fanout) ((w.opened ts ws).driveFrom ws) = some d)
    (hf : d.finished) (hn : d.walkAbort = none)
    (he' : ∀ p a, .complete p a ∈ events' → a = answer p)
    (hs' : events'.foldlM (Drive.step fanout') ((w'.opened ts ws).driveFrom ws) = some d')
    (hf' : d'.finished) : d'.walkAbort = none ∧ Agree d.walk d'.walk := by
  obtain ⟨hb, hsta, -, hsu⟩ := h.bounded ht hanswers he hs hf hn
  have ho := h.opened ht ws
  have hreg : Registered { w'.opened ts ws with reseedReferences := [] } :=
    ho.right.registered.frame
  have hd₀ := Driving.start hreg ho.right.card hsta
  have hn' : d'.walkAbort = none :=
    Bounded.steps (by exact hb) hd₀ hsu hsta hs' he'
  refine ⟨hn', ?_⟩
  obtain ⟨hre, hrs, added, hd, hfr, hw, ha⟩ :=
    h.left.iterate ht hs hf hn
  obtain ⟨hre', hrs', added', hd', hfr', hw', ha'⟩ :=
    h.right.iterate ht hs' hf' hn'
  rw [← ho.newSeeds] at hd'
  have hi : (w.opened ts ws).iteration = (w'.opened ts ws).iteration := by
    rw [Walk.iteration, Walk.iteration, ho.reads]
  have hp : added.Perm added' := hd.perm_added hd' ⟨hfr, hw⟩
    ⟨hfr', hw'⟩ ho.visited hi ho.tenantGeneration
    ho.reseedReferences (fun r hr => he _ _ (complete_mem ha hr))
    fun r hr => he' _ _ (complete_mem ha' hr)
  refine ⟨hre, hre', ?_, ?_, ?_, ?_, ?_, ?_, ?_⟩
  · rw [hd.resolved, hd'.resolved]
    exact ho.resolved.append hp
  · rw [hd.same.reads, hd'.same.reads]
    exact ho.reads
  · rw [hd.same.tenantGeneration, hd'.same.tenantGeneration]
    exact ho.tenantGeneration
  · rw [hd.same.lastTenants, hd'.same.lastTenants]
    exact ho.lastTenants
  · rw [hd.same.lastWanted, hd'.same.lastWanted]
    exact ho.lastWanted
  · rw [hd.same.firstIteration, hd'.same.firstIteration]
    exact ho.firstIteration
  · rw [hrs, hrs']

end Agree

def MaterializationOutcome.Agrees : MaterializationOutcome → MaterializationOutcome → Prop
  | .success i v t, .success i' v' t' => i.Perm i' ∧ v.Perm v' ∧ t.Perm t'
  | .unobtainable m c r refusal echo, .unobtainable m' c' r' refusal' echo' =>
    m.Perm m' ∧ c.Perm c' ∧ r.Perm r' ∧ refusal = refusal' ∧ echo = echo'
  | o, o' => o = o'

theorem MaterializationOutcome.Agrees.refl (o : MaterializationOutcome) : o.Agrees o := by
  cases o <;> simp [Agrees]

namespace Agree

variable {w w' : Walk}

section

variable (h : Agree w w')
include h

theorem reached : w.Reached p ↔ w'.Reached p := by
  have hr : w.Refers = w'.Refers := by
    funext p q
    simp [Walk.Refers, h.resolved.mem_iff]
  rw [Walk.Reached, Walk.Reached, hr, h.lastWanted]

theorem liveRooted : w.liveRooted = w'.liveRooted := by
  ext p
  rw [mem_liveRooted h.left.registered, mem_liveRooted h.right.registered, h.reached]

theorem verifiedTenants (p : String) :
    w.verifiedTenants.lookup p = w'.verifiedTenants.lookup p := by
  have hn : ∀ w : Walk, Rested w →
      ((w.journal.resolved.filterMap servedTenants).map Prod.fst).Nodup := by
    intro w hw
    refine hw.nodup_filterMap fun r _ x hx => ?_
    unfold servedTenants at hx
    split at hx
    · rename_i ha
      cases hx
      exact ⟨rfl, by simp [isLive, isServed, ha]⟩
    · cases hx
  refine Option.ext fun tenants => ?_
  rw [h.left.registered.tenants, h.right.registered.tenants,
    Map.lookup_foldl_insert_eq_some (hn w h.left), Map.lookup_foldl_insert_eq_some (hn w' h.right)]
  exact (h.resolved.filterMap _).mem_iff

theorem outcome : w.outcome.Agrees w'.outcome := by
  have hw : w.liveMissingWanted.Perm w'.liveMissingWanted := by
    rw [Walk.liveMissingWanted, h.lastWanted]
    exact (h.paths h.left.registered.missingWanted h.right.registered.missingWanted).filter _
  have hr : w.liveMissingReferences.Perm w'.liveMissingReferences := by
    rw [Walk.liveMissingReferences, h.liveRooted]
    exact h.missingReferences.filter _
  have ha : ∀ {select} {cells cells' : GenStampedCells},
      cells.cells = w.journal.resolved.filterMap (stamp select w.tenantGeneration) →
      cells'.cells = w'.journal.resolved.filterMap (stamp select w'.tenantGeneration) →
      w.liveAny cells = w'.liveAny cells' := by
    intro select cells cells' hc hc'
    rw [Walk.liveAny, h.lastWanted, h.liveRooted]
    exact (h.paths hc hc').any_eq
  have hi : w.ingested.Perm w'.ingested := by
    rw [h.left.registered.ingested, h.right.registered.ingested]
    exact h.resolved.filterMap _
  have hv : w.verified.Perm w'.verified := by
    rw [h.left.registered.verified, h.right.registered.verified]
    exact h.resolved.filterMap _
  have hcv := hi.append hv
  rw [Walk.outcome, Walk.outcome, staleCell_eq_none h.left.registered,
    staleCell_eq_none h.right.registered]
  dsimp only
  rw [hw.isEmpty_eq, hr.isEmpty_eq]
  split
  · refine ⟨hi, hv, ?_⟩
    simp only [h.verifiedTenants]
    exact hcv.map _
  · rw [ha h.left.registered.trustRefused h.right.registered.trustRefused,
      ha h.left.registered.contentMismatched h.right.registered.contentMismatched]
    exact ⟨hw, hcv, hr, rfl, rfl⟩

end

end Agree

theorem openIteration_some (w : Walk) :
    w.openIteration (some ts) (some ws) = if ts = [] then .failed .noTenantContext
      else if w.firstIteration ∧ ws = [] then .failed .noVerifiableWantedPaths
      else if (w.opened ts ws).newSeeds ws = [] ∧ (w.opened ts ws).reseedReferences = [] then
        .complete (w.opened ts ws)
      else .walking ((w.opened ts ws).driveFrom ws) := by
  have hf : (w.observeTenants ts.toFinset).firstIteration = w.firstIteration := by
    simp only [Walk.observeTenants]
    split <;> rfl
  simp only [Walk.openIteration, List.isEmpty_iff, Bool.and_eq_true, hf]
  rfl

section Execute

variable {s : Script} {k fanout : Nat} {w v : Walk} {its : List Iteration}
  {o : MaterializationOutcome}

def resume (fanout : Nat) (its : List Iteration) (d : Drive) :
    Option (MaterializationOutcome × Walk) :=
  if d.finished then
    match d.walkAbort with
    | some evidence => (foldAbortEvidence evidence).map (·, d.walk)
    | none => execute fanout d.walk its
  else none

theorem execute_cons (hfo : s.Follows k (it :: its)) : execute fanout w (it :: its) =
    if s.tenants k = [] then some (.infraFailure .noTenantContext, w)
    else if w.firstIteration ∧ s.wanted k = [] then
      some (.infraFailure .noVerifiableWantedPaths, w)
    else if (w.opened (s.tenants k) (s.wanted k)).newSeeds (s.wanted k) = [] ∧
        (w.opened (s.tenants k) (s.wanted k)).reseedReferences = [] then
      some ((w.opened (s.tenants k) (s.wanted k)).outcome, w.opened (s.tenants k) (s.wanted k))
    else
      (it.events.foldlM (Drive.step fanout)
        ((w.opened (s.tenants k) (s.wanted k)).driveFrom (s.wanted k))).bind
          (resume fanout its) := by
  obtain ⟨hte, hw, -, -⟩ := hfo
  rw [execute, hte, hw, openIteration_some]
  by_cases ht : s.tenants k = []
  · rw [if_pos ht, if_pos ht]
  rw [if_neg ht, if_neg ht]
  by_cases hf : w.firstIteration ∧ s.wanted k = []
  · rw [if_pos hf, if_pos hf]
  rw [if_neg hf, if_neg hf]
  by_cases hd : (w.opened (s.tenants k) (s.wanted k)).newSeeds (s.wanted k) = [] ∧
      (w.opened (s.tenants k) (s.wanted k)).reseedReferences = []
  · rw [if_pos hd, if_pos hd]
  · rw [if_neg hd, if_neg hd]
    rfl

theorem capLatched_driveFrom (w : Walk) (ws : List String) : (w.driveFrom ws).CapLatched := by
  refine Drive.CapLatched.enqueueAll ?_ _
  simp [Drive.CapLatched]

section

variable (hanswers : ∀ k x grade, s.answer k x ≠ .abortGrade grade)
include hanswers

theorem exists_drive (hfo : s.Follows k (it :: its)) (hc : v.visited.card ≤ closureWalkCap)
    (hr : (it.events.foldlM (Drive.step fanout) (w.driveFrom ws)).bind (resume fanout its) =
      some (o, v)) :
    ∃ d, it.events.foldlM (Drive.step fanout) (w.driveFrom ws) = some d ∧ d.finished ∧
      d.walkAbort = none ∧ execute fanout d.walk its = some (o, v) := by
  obtain ⟨d, hs, hr⟩ := Option.bind_eq_some_iff.mp hr
  have hl := (capLatched_driveFrom w ws).steps (hanswers k) hfo.2.2.1 hs
  rw [resume] at hr
  by_cases hf : d.finished
  · rw [if_pos hf] at hr
    cases ha : d.walkAbort with
    | none =>
      rw [ha] at hr
      exact ⟨d, hs, hf, ha, hr⟩
    | some evidence =>
      simp only [ha, Option.map_eq_some_iff] at hr
      obtain ⟨-, -, -, rfl⟩ := hr
      exact absurd (hl (by simp [ha])) (not_lt.mpr hc)
  · rw [if_neg hf] at hr
    cases hr

theorem Agree.run (h : Agree w w') (hf : s.Follows k its) (hf' : s.Follows k its')
    (hr : execute fanout w its = some (o, v)) (hc : v.visited.card ≤ closureWalkCap)
    (hr' : execute fanout' w' its' = some (o', v')) : o.Agrees o' ∧ Agree v v' := by
  induction its generalizing k w w' its' with
  | nil => cases hr
  | cons it its ih =>
    cases its' with
    | nil => cases hr'
    | cons it' its' =>
      rw [execute_cons hf] at hr
      rw [execute_cons hf', ← h.firstIteration] at hr'
      by_cases ht : s.tenants k = []
      · rw [if_pos ht] at hr hr'
        cases hr
        cases hr'
        exact ⟨.refl _, h⟩
      rw [if_neg ht] at hr hr'
      by_cases hfs : w.firstIteration ∧ s.wanted k = []
      · rw [if_pos hfs] at hr hr'
        cases hr
        cases hr'
        exact ⟨.refl _, h⟩
      have ho := h.opened ht (s.wanted k)
      rw [if_neg hfs] at hr hr'
      by_cases hd : (w.opened (s.tenants k) (s.wanted k)).newSeeds (s.wanted k) = [] ∧
          (w.opened (s.tenants k) (s.wanted k)).reseedReferences = []
      · rw [if_pos hd] at hr
        rw [if_pos ((ho.complete_iff).mp hd)] at hr'
        cases hr
        cases hr'
        exact ⟨ho.outcome, ho⟩
      rw [if_neg hd] at hr
      rw [if_neg fun hd' => hd ((ho.complete_iff).mpr hd')] at hr'
      obtain ⟨d, hs, hfi, hn, hr⟩ := exists_drive hanswers hf hc hr
      obtain ⟨d', hs', hr'⟩ := Option.bind_eq_some_iff.mp hr'
      rw [resume] at hr'
      by_cases hfi' : d'.finished
      · obtain ⟨hn', ha⟩ := h.iterate ht (hanswers k) hf.2.2.1 hs hfi hn hf'.2.2.1 hs' hfi'
        rw [if_pos hfi', hn'] at hr'
        exact ih ha hf.2.2.2 hf'.2.2.2 hr hr'
      · rw [if_neg hfi'] at hr'
        cases hr'

theorem Agree.exists_oneAtATime (h : Agree w w') (hf : s.Follows k its)
    (hr : execute fanout w its = some (o, v)) (hc : v.visited.card ≤ closureWalkCap) :
    ∃ its' o' v', s.Follows k its' ∧ execute 1 w' its' = some (o', v') := by
  induction its generalizing k w w' with
  | nil => cases hr
  | cons it its ih =>
    have hq : s.Follows k [⟨some (s.tenants k), some (s.wanted k), []⟩] :=
      ⟨rfl, rfl, by simp, trivial⟩
    rw [execute_cons hf] at hr
    by_cases ht : s.tenants k = []
    · exact ⟨_, _, _, hq, by rw [execute_cons hq, if_pos ht]⟩
    by_cases hfs : w'.firstIteration ∧ s.wanted k = []
    · exact ⟨_, _, _, hq, by rw [execute_cons hq, if_neg ht, if_pos hfs]⟩
    by_cases hd : (w'.opened (s.tenants k) (s.wanted k)).newSeeds (s.wanted k) = [] ∧
        (w'.opened (s.tenants k) (s.wanted k)).reseedReferences = []
    · exact ⟨_, _, _, hq, by rw [execute_cons hq, if_neg ht, if_neg hfs, if_pos hd]⟩
    have ho := h.opened ht (s.wanted k)
    rw [if_neg ht, h.firstIteration, if_neg hfs,
      if_neg fun hd' => hd ((ho.complete_iff).mp hd')] at hr
    obtain ⟨d, hs, hfi, hn, hr⟩ := exists_drive hanswers hf hc hr
    obtain ⟨hb, hsta, hw, hsu⟩ :=
      h.bounded ht (hanswers k) hf.2.2.1 hs hfi hn
    have hre : Registered { w'.opened (s.tenants k) (s.wanted k) with reseedReferences := [] } :=
      ho.right.registered.frame
    have hdri := Driving.start hre ho.right.card hsta
    obtain ⟨events, d', he, hs', hfi'⟩ :=
      Bounded.exists_oneAtATime (by exact hb) hdri hsu hsta hw
    obtain ⟨hn', hag⟩ := h.iterate ht (hanswers k) hf.2.2.1 hs hfi hn he hs' hfi'
    obtain ⟨its', o', v', hf', hr'⟩ := ih hag hf.2.2.2 hr
    have ha : s.Follows k (⟨some (s.tenants k), some (s.wanted k), events⟩ :: its') :=
      ⟨rfl, rfl, he, hf'⟩
    refine ⟨_, o', v', ha, ?_⟩
    rw [execute_cons ha, if_neg ht, if_neg hfs, if_neg hd, Option.bind_eq_some_iff]
    refine ⟨d', hs', ?_⟩
    rw [resume, if_pos hfi', hn']
    exact hr'

end

end Execute

theorem Agree.init : Agree {} {} :=
  ⟨.init, .init, .nil, rfl, rfl, rfl, rfl, rfl, .nil⟩

/-- Every schedule of a script gives the outcome of the walk that resolves one path at a time, and
resolves each admitted path once. -/
theorem outcome_schedule_free {s : Script}
    (hanswers : ∀ k x grade, s.answer k x ≠ .abortGrade grade) {fanout : Nat}
    {its : List Iteration} {o : MaterializationOutcome} {w : Walk} (hfollows : s.Follows 0 its)
    (hrun : execute fanout {} its = some (o, w)) (hcap : w.visited.card ≤ closureWalkCap) :
    (∃ its' o' w', s.Follows 0 its' ∧ execute 1 {} its' = some (o', w')) ∧
    ∀ fanout' its' o' w', s.Follows 0 its' → execute fanout' {} its' = some (o', w') →
      o.Agrees o' ∧ w'.journal.enqueued.Perm (w'.journal.resolved.map admission) := by
  refine ⟨Agree.init.exists_oneAtATime hanswers hfollows hrun hcap, ?_⟩
  intro fanout' its' o' w' hfollows' hrun'
  obtain ⟨ha, hag⟩ :=
    Agree.init.run hanswers hfollows hfollows' hrun hcap hrun'
  exact ⟨ha, hag.right.enqueued⟩

def oneReference : Script where
  tenants _ := [1]
  wanted _ := ["q"]
  answer _ p := if p = "q" then .served ["p"] [1] true else .served [] [1] false

def servedClosure : List Iteration :=
  [⟨some [1], some ["q"],
    [.spawn, .complete "q" (.served ["p"] [1] true), .spawn, .complete "p" (.served [] [1] false)]⟩,
   ⟨some [1], some ["q"], []⟩]

theorem outcome_schedule_free_oneReference :
    ∃ its o w, oneReference.Follows 0 its ∧ execute 1 {} its = some (o, w) ∧
      MaterializationOutcome.Agrees (.success ["q"] ["p"] [("q", [1]), ("p", [1])]) o := by
  have hanswers : ∀ k x grade, oneReference.answer k x ≠ .abortGrade grade := by
    intro k x grade
    simp only [oneReference]
    split <;> simp
  have hf : oneReference.Follows 0 servedClosure := by
    refine ⟨rfl, rfl, fun p a hp => ?_, rfl, rfl, by simp, trivial⟩
    simp only [mem_cons, reduceCtorEq, false_or, not_mem_nil, or_false] at hp
    rcases hp with ⟨rfl, rfl⟩ | ⟨rfl, rfl⟩ <;> simp [oneReference]
  have hr : (execute 4 {} servedClosure).map (fun x => (x.1, x.2.visited)) =
      some (.success ["q"] ["p"] [("q", [1]), ("p", [1])], {"q", "p"}) := by
    decide +kernel
  obtain ⟨⟨o, w⟩, hr, heq⟩ := Option.map_eq_some_iff.mp hr
  obtain ⟨rfl, hv⟩ := Prod.mk.inj heq
  obtain ⟨⟨its, o, w', hi, hw'⟩, ha⟩ :=
    outcome_schedule_free hanswers hf hr (by rw [show w.visited = _ from hv]; decide)
  exact ⟨its, o, w', hi, hw', (ha 1 its o w' hi hw').1⟩

end RioBuild.Materialize
