import RioBuild.Lib.Window
import RioBuild.Materialize.Walk

namespace RioBuild.Materialize

open Lib List

namespace Resolved

def next (r : Resolved) : List String :=
  match r.answer with
  | .served references _ _ => references
  | _ => []

def isServed (r : Resolved) : Bool :=
  match r.answer with
  | .served .. => true
  | _ => false

def isSettled (r : Resolved) : Bool :=
  match r.answer with
  | .settled .. => true
  | _ => false

def isLive (g : Nat) (r : Resolved) : Bool := r.isServed || r.isSettled && r.generation = g

def servedTenants (r : Resolved) : Option (String × List Uuid) :=
  match r.answer with
  | .served _ verifiedTenants _ => some (r.path, verifiedTenants)
  | _ => none

def ingestedPath (r : Resolved) : Option String :=
  match r.answer with
  | .served _ _ true => some r.path
  | _ => none

def verifiedPath (r : Resolved) : Option String :=
  match r.answer with
  | .served _ _ false => some r.path
  | _ => none

def stamp (select : PathCell → Bool → Bool → Bool) (g : Nat) (r : Resolved) :
    Option (String × Nat) :=
  match r.answer with
  | .settled t c =>
    if select r.cell t c && r.generation = g then some (r.path, r.generation) else none
  | _ => none

def admission (r : Resolved) : String × PathCell × Nat := (r.path, r.cell, r.iteration)

def told (r : Resolved) : String × PathAnswer := (r.path, r.answer)

def entry (r : Resolved) : String × PathCell × PathAnswer := (r.path, r.cell, r.answer)

theorem stamp_eq_some {r : Resolved} : r.stamp select g = some x ↔
    x = (r.path, g) ∧ r.generation = g ∧ ∃ t c, r.answer = .settled t c ∧ select r.cell t c := by
  unfold stamp
  cases r.answer with
  | served | abortGrade => simp
  | settled t c =>
    simp only [Option.ite_none_right_eq_some, Bool.and_eq_true, decide_eq_true_eq,
      Option.some.injEq]
    constructor
    · rintro ⟨⟨hs, rfl⟩, rfl⟩
      exact ⟨rfl, rfl, t, c, rfl, hs⟩
    · rintro ⟨rfl, rfl, t', c', heq, hs⟩
      cases heq
      exact ⟨⟨hs, rfl⟩, rfl⟩

end Resolved

def DriveEvent.answered : DriveEvent → Option (String × PathAnswer)
  | .spawn => none
  | .complete path answer => some (path, answer)

theorem DriveEvent.answered_eq_some {e : DriveEvent} :
    e.answered = some x ↔ e = .complete x.1 x.2 := by
  cases e with
  | spawn => simp [answered]
  | complete path answer => simp [answered, Prod.ext_iff]

theorem mem_answered {events : List DriveEvent} :
    x ∈ events.filterMap DriveEvent.answered ↔ .complete x.1 x.2 ∈ events := by
  simp [DriveEvent.answered_eq_some]

theorem complete_mem {added : List Resolved} {events : List DriveEvent}
    (h : added.map Resolved.told = events.filterMap DriveEvent.answered) (hr : r ∈ added) :
    .complete r.path r.answer ∈ events := by
  have ht : r.told ∈ events.filterMap DriveEvent.answered := h ▸ mem_map_of_mem hr
  exact mem_answered.mp ht

def inWanted (cell : PathCell) (_ _ : Bool) : Bool := cell = .wanted

def inReferences (cell : PathCell) (_ _ : Bool) : Bool := cell = .reference

def inTrust (_ : PathCell) (t _ : Bool) : Bool := t

def inContent (_ : PathCell) (_ c : Bool) : Bool := c

structure Registered (w : Walk) : Prop where
  ingested : w.ingested = w.journal.resolved.filterMap Resolved.ingestedPath
  verified : w.verified = w.journal.resolved.filterMap Resolved.verifiedPath
  tenants : w.verifiedTenants = (w.journal.resolved.filterMap Resolved.servedTenants).foldl
    (fun m x => m.insert x.1 x.2) ∅
  edges : ∀ p q, q ∈ w.children p ↔ ∃ r ∈ w.journal.resolved, r.path = p ∧ q ∈ r.next
  missingWanted : w.missingWanted.cells =
    w.journal.resolved.filterMap (Resolved.stamp inWanted w.tenantGeneration)
  missingReferences : w.missingReferences.cells =
    w.journal.resolved.filterMap (Resolved.stamp inReferences w.tenantGeneration)
  trustRefused : w.trustRefused.cells =
    w.journal.resolved.filterMap (Resolved.stamp inTrust w.tenantGeneration)
  contentMismatched : w.contentMismatched.cells =
    w.journal.resolved.filterMap (Resolved.stamp inContent w.tenantGeneration)
  generations : ∀ r ∈ w.journal.resolved, r.generation ≤ w.tenantGeneration

namespace Registered

variable {w : Walk} {x : String × PathCell} {references : List String} {tenants : List Uuid}
  {ingested t c : Bool}

theorem init : Registered {} where
  ingested := rfl
  verified := rfl
  tenants := rfl
  edges := by simp [Walk.children]
  missingWanted := rfl
  missingReferences := rfl
  trustRefused := rfl
  contentMismatched := rfl
  generations := by simp

theorem serve (h : Registered w) :
    Registered ((w.serve x.1 references tenants ingested).logResolved x
      (.served references tenants ingested)) := by
  have hs : ∀ select, ((w.serve x.1 references tenants ingested).logResolved x
      (.served references tenants ingested)).journal.resolved.filterMap
        (Resolved.stamp select w.tenantGeneration) =
      w.journal.resolved.filterMap (Resolved.stamp select w.tenantGeneration) := by
    intro select
    simp [Walk.logResolved, Walk.serve, Resolved.stamp]
  refine ⟨?_, ?_, ?_, ?_, ?_, ?_, ?_, ?_, ?_⟩
  · cases ingested <;> simp [Walk.logResolved, Walk.serve, Resolved.ingestedPath, h.ingested]
  · cases ingested <;> simp [Walk.logResolved, Walk.serve, Resolved.verifiedPath, h.verified]
  · simp [Walk.logResolved, Walk.serve, Resolved.servedTenants, h.tenants]
  · intro p q
    have he := h.edges p q
    have hc : q ∈ ((w.serve x.1 references tenants ingested).logResolved x
        (.served references tenants ingested)).children p ↔
          q ∈ w.children p ∨ x.1 = p ∧ q ∈ references := by
      simp only [Walk.children, Walk.logResolved, Walk.serve]
      cases references with
      | nil => simp
      | cons r references =>
        by_cases hp : p = x.1
        · subst hp
          simp
        · simp [hp, Ne.symm hp]
    rw [hc, he]
    simp [Walk.logResolved, Walk.serve, Resolved.next]
  · exact h.missingWanted.trans (hs inWanted).symm
  · exact h.missingReferences.trans (hs inReferences).symm
  · exact h.trustRefused.trans (hs inTrust).symm
  · exact h.contentMismatched.trans (hs inContent).symm
  · intro r hr
    rcases mem_append.mp hr with hr | hr
    · exact h.generations r hr
    · rw [mem_singleton.mp hr]
      exact le_rfl

theorem settle (h : Registered w) :
    Registered ((w.settle x.1 x.2 t c).logResolved x (.settled t c)) := by
  refine ⟨?_, ?_, ?_, ?_, ?_, ?_, ?_, ?_, ?_⟩
  · simp [Walk.logResolved, Walk.settle, Resolved.ingestedPath, h.ingested]
  · simp [Walk.logResolved, Walk.settle, Resolved.verifiedPath, h.verified]
  · refine h.tenants.trans ?_
    simp [Walk.logResolved, Walk.settle, Resolved.servedTenants, filterMap_cons]
  · intro p q
    have he := h.edges p q
    simp only [Walk.children] at he
    simp [Walk.logResolved, Walk.settle, Walk.children, Resolved.next, he, or_and_right, exists_or]
  · by_cases hc : x.2 = .wanted <;>
      simp [Walk.logResolved, Walk.settle, Resolved.stamp, GenStampedCells.record, inWanted, hc,
        h.missingWanted]
  · by_cases hc : x.2 = .reference <;>
      simp [Walk.logResolved, Walk.settle, Resolved.stamp, GenStampedCells.record, inReferences,
        hc, h.missingReferences]
  · cases t <;>
      simp [Walk.logResolved, Walk.settle, Resolved.stamp, GenStampedCells.record, inTrust,
        h.trustRefused]
  · cases c <;>
      simp [Walk.logResolved, Walk.settle, Resolved.stamp, GenStampedCells.record, inContent,
        h.contentMismatched]
  · intro r hr
    rcases mem_append.mp hr with hr | hr
    · exact h.generations r hr
    · rw [mem_singleton.mp hr]
      exact Nat.le_refl _

theorem frame (h : Registered w) : Registered { w with
    visited := visited
    lastWanted := lastWanted
    lastTenants := lastTenants
    reseedReferences := reseedReferences
    firstIteration := firstIteration
    journal := { w.journal with reads := reads, enqueued := enqueued } } :=
  { h with }

end Registered

def admitted (visited : Finset String) : List (String × PathCell) → List (String × PathCell)
  | [] => []
  | x :: xs => if x.1 ∈ visited then admitted visited xs else x :: admitted (insert x.1 visited) xs

theorem map_fst_admitted :
    (admitted visited xs).map Prod.fst = Search.unseen visited (xs.map Prod.fst) := by
  induction xs generalizing visited with
  | nil => rfl
  | cons x xs ih =>
    rw [admitted, map_cons, Search.unseen]
    split
    · exact ih
    · rw [map_cons, ih]

namespace Drive

variable {d : Drive} {xs : List (String × PathCell)}

def withAdmitted (d : Drive) (xs : List (String × PathCell)) : Drive :=
  { d with
    walk.visited := d.walk.visited ∪ (xs.map Prod.fst).toFinset
    walk.journal.enqueued := d.walk.journal.enqueued ++
      (admitted d.walk.visited xs).map fun x => (x.1, x.2, d.walk.iteration)
    frontier := d.frontier ++ admitted d.walk.visited xs }

theorem insert_union_map (v : Finset String) (x : String × PathCell) (xs) :
    insert x.1 v ∪ (xs.map Prod.fst).toFinset = v ∪ ((x :: xs).map Prod.fst).toFinset := by
  simp [Finset.insert_union]

theorem enqueueAll_of_card
    (hc : (d.walk.visited ∪ (xs.map Prod.fst).toFinset).card ≤ closureWalkCap) :
    d.enqueueAll xs = d.withAdmitted xs := by
  induction xs generalizing d with
  | nil => simp [enqueueAll, withAdmitted, admitted]
  | cons x xs ih =>
    have hu := insert_union_map d.walk.visited x xs
    rw [enqueueAll, foldl_cons, enqueuePath]
    split_ifs with hx
    · rw [Finset.insert_eq_of_mem hx] at hu
      refine (ih (by rwa [hu])).trans ?_
      simp only [withAdmitted, admitted, if_pos hx, hu]
    · have hle := (Finset.card_le_card (Finset.subset_union_left.trans hu.subset)).trans hc
      simp only [if_neg (not_lt.mpr hle)]
      refine (ih (by simpa using hc)).trans ?_
      simp only [withAdmitted, admitted, if_neg hx]
      simp [Walk.iteration]

theorem isSome_enqueueAll (xs : List (String × PathCell)) (h : d.walkAbort.isSome) :
    (d.enqueueAll xs).walkAbort.isSome := by
  induction xs generalizing d with
  | nil => exact h
  | cons x xs ih =>
    refine ih ?_
    change (d.enqueuePath x.1 x.2).walkAbort.isSome
    unfold enqueuePath
    split
    · exact h
    · dsimp only
      split
      · rfl
      · exact h

theorem card_of_enqueueAll (hc : d.walk.visited.card ≤ closureWalkCap)
    (h : (d.enqueueAll xs).walkAbort = none) : d.walkAbort = none ∧
      (d.walk.visited ∪ (xs.map Prod.fst).toFinset).card ≤ closureWalkCap := by
  induction xs generalizing d with
  | nil => exact ⟨h, by simpa using hc⟩
  | cons x xs ih =>
    have hu := insert_union_map d.walk.visited x xs
    rw [enqueueAll, foldl_cons, enqueuePath] at h
    split_ifs at h with hx
    · rw [← hu, Finset.insert_eq_of_mem hx]
      exact ih hc h
    · dsimp only at h
      split_ifs at h with hle
      · have hl : ({ d with walk.visited := insert x.1 d.walk.visited }.latch
            (capEvidence x.1)).walkAbort.isSome := rfl
        have hs := isSome_enqueueAll xs hl
        rw [enqueueAll, h] at hs
        cases hs
      · obtain ⟨ha, hle⟩ := ih (Nat.le_of_not_lt hle) h
        exact ⟨ha, by rwa [← hu]⟩

end Drive

theorem mem_admitted (hx : x ∈ admitted visited xs) : x ∈ xs ∧ x.1 ∉ visited := by
  induction xs generalizing visited with
  | nil => cases hx
  | cons y xs ih =>
    rw [admitted] at hx
    split_ifs at hx with hy
    · exact (ih hx).imp_left (mem_cons_of_mem _)
    · rcases mem_cons.mp hx with rfl | hx
      · exact ⟨mem_cons_self, hy⟩
      · obtain ⟨hm, hn⟩ := ih hx
        exact ⟨mem_cons_of_mem _ hm, fun h => hn (Finset.mem_insert_of_mem h)⟩

theorem admitted_append : admitted visited (xs ++ ys) =
    admitted visited xs ++ admitted (visited ∪ (xs.map Prod.fst).toFinset) ys := by
  induction xs generalizing visited with
  | nil => simp [admitted]
  | cons x xs ih =>
    rw [cons_append, admitted, admitted]
    split_ifs with hx
    · rw [ih, map_cons, toFinset_cons, Finset.union_insert, Finset.insert_eq_of_mem]
      exact Finset.mem_union_left _ hx
    · rw [ih, map_cons, toFinset_cons, cons_append, Finset.union_insert, Finset.insert_union]

def seedCell (wanted : List String) (p : String) : PathCell :=
  if p ∈ wanted then .wanted else .reference

def seeds (wanted reseeds : List String) : List (String × PathCell) :=
  wanted.map (·, .wanted) ++ reseeds.map (·, .reference)

theorem map_fst_seeds : (seeds wanted reseeds).map Prod.fst = wanted ++ reseeds := by
  simp [seeds, Function.comp_def]

theorem seedCell_of_admitted (hx : x ∈ admitted visited (seeds wanted reseeds)) :
    x.2 = seedCell wanted x.1 := by
  rw [seeds, admitted_append] at hx
  rcases mem_append.mp hx with hx | hx
  · obtain ⟨p, hp, rfl⟩ := mem_map.mp (mem_admitted hx).1
    exact (if_pos hp).symm
  · obtain ⟨hm, hn⟩ := mem_admitted hx
    obtain ⟨p, -, rfl⟩ := mem_map.mp hm
    refine (if_neg fun hp => hn ?_).symm
    simp [hp]

structure SameReads (w₀ w : Walk) : Prop where
  reads : w.journal.reads = w₀.journal.reads
  tenantGeneration : w.tenantGeneration = w₀.tenantGeneration
  lastTenants : w.lastTenants = w₀.lastTenants
  lastWanted : w.lastWanted = w₀.lastWanted
  reseedReferences : w.reseedReferences = w₀.reseedReferences
  firstIteration : w.firstIteration = w₀.firstIteration

theorem SameReads.trans (h : SameReads w₀ w) (h' : SameReads w w') : SameReads w₀ w' :=
  ⟨h'.reads.trans h.reads, h'.tenantGeneration.trans h.tenantGeneration,
    h'.lastTenants.trans h.lastTenants, h'.lastWanted.trans h.lastWanted,
    h'.reseedReferences.trans h.reseedReferences, h'.firstIteration.trans h.firstIteration⟩

theorem SameReads.iteration (h : SameReads w₀ w) : w.iteration = w₀.iteration := by
  rw [Walk.iteration, Walk.iteration, h.reads]

/-- A drive loop that started from `w₀` with these seeds and has applied `added`. -/
structure Driving (w₀ : Walk) (wanted reseeds : List String) (d : Drive) (added : List Resolved) :
    Prop where
  expanding : Window.Expanding w₀.visited (wanted ++ reseeds) d.walk.visited
    ((d.frontier ++ d.window).map Prod.fst) (added.map fun r => (r.path, r.next))
  cells : ∀ x ∈ d.frontier ++ d.window, x.2 = seedCell wanted x.1
  resolved : d.walk.journal.resolved = w₀.journal.resolved ++ added
  stamped : ∀ r ∈ added, r.cell = seedCell wanted r.path ∧ r.iteration = w₀.iteration ∧
    r.generation = w₀.tenantGeneration ∧ (r.isServed ∨ r.isSettled)
  enqueued : d.walk.journal.enqueued.Perm (w₀.journal.enqueued ++
    ((d.frontier ++ d.window).map (fun x => (x.1, x.2, w₀.iteration)) ++
      added.map Resolved.admission))
  registered : Registered d.walk
  card : d.walk.visited.card ≤ closureWalkCap
  same : SameReads w₀ d.walk

namespace Driving

variable {w₀ : Walk} {wanted reseeds : List String} {d : Drive} {added : List Resolved}
  {x : String × PathCell}

theorem start (hr : Registered w₀) (hc : w₀.visited.card ≤ closureWalkCap)
    (ha : (Drive.enqueueAll { walk := w₀ } (seeds wanted reseeds)).walkAbort = none) :
    Driving w₀ wanted reseeds (Drive.enqueueAll { walk := w₀ } (seeds wanted reseeds)) [] := by
  obtain ⟨-, hu⟩ := Drive.card_of_enqueueAll hc ha
  rw [Drive.enqueueAll_of_card hu]
  refine ⟨?_, ?_, ?_, by simp, ?_, ?_, hu, ⟨rfl, rfl, rfl, rfl, rfl, rfl⟩⟩
  · simp only [Drive.withAdmitted, nil_append, append_nil, map_fst_admitted, map_fst_seeds]
    exact Window.Expanding.start _ _
  · intro x hx
    simp only [Drive.withAdmitted, append_nil] at hx
    exact seedCell_of_admitted hx
  · simp [Drive.withAdmitted]
  · simp [Drive.withAdmitted]
  · exact hr.frame

section

variable (h : Driving w₀ wanted reseeds d added)
include h

theorem spawn (hf : d.frontier = x :: rest) :
    Driving w₀ wanted reseeds { d with frontier := rest, window := d.window ++ [x] } added := by
  have hp : (d.frontier ++ d.window).Perm (rest ++ (d.window ++ [x])) := by
    rw [hf, ← append_assoc]
    exact (perm_append_singleton x (rest ++ d.window)).symm
  refine ⟨h.expanding.perm (hp.map _), ?_, h.resolved, h.stamped, ?_, h.registered, h.card, h.same⟩
  · exact fun y hy => h.cells y (hp.mem_iff.mpr hy)
  · exact h.enqueued.trans (List.Perm.append_left _ ((hp.map _).append_right _))

theorem resolve {r : Resolved} {v : Walk}
    (hx : x ∈ d.window) (hr : r.path = x.1 ∧ r.cell = x.2 ∧ r.iteration = w₀.iteration ∧
      r.generation = w₀.tenantGeneration ∧ (r.isServed ∨ r.isSettled))
    (hv : v.visited = d.walk.visited)
    (hj : v.journal = { d.walk.journal with resolved := d.walk.journal.resolved ++ [r] })
    (hre : Registered v) (hs : SameReads d.walk v)
    (hca : (d.walk.visited ∪ r.next.toFinset).card ≤ closureWalkCap) :
    Driving w₀ wanted reseeds
      (Drive.withAdmitted { d with walk := v, window := d.window.erase x }
        (r.next.map (·, .reference))) (added ++ [r]) := by
  obtain ⟨hpa, hc, hi, hg, ha⟩ := hr
  have hn : (r.next.map (·, PathCell.reference)).map Prod.fst = r.next := by
    simp [Function.comp_def]
  have hp : (d.frontier ++ d.window).Perm (x :: (d.frontier ++ d.window.erase x)) :=
    ((perm_cons_erase hx).append_left d.frontier).trans perm_middle
  -- what is pending afterwards, with the admitted references moved to the end
  have hpe : ((d.frontier ++ d.window.erase x) ++
      admitted d.walk.visited (r.next.map (·, .reference))).Perm
      (d.frontier ++ admitted d.walk.visited (r.next.map (·, .reference)) ++ d.window.erase x) := by
    rw [append_assoc, append_assoc]
    exact perm_append_comm.append_left _
  have he := (h.expanding.perm (hp.map Prod.fst)).expand r.next
  refine ⟨?_, ?_, ?_, ?_, ?_, ?_, ?_, ?_⟩
  · simp only [Drive.withAdmitted, hv, map_append, map_singleton]
    rw [hpa]
    refine Window.Expanding.perm ?_ ((hpe.map Prod.fst).trans (by simp))
    simpa [map_fst_admitted, Function.comp_def] using he
  · intro y hy
    simp only [Drive.withAdmitted, hv] at hy
    rcases mem_append.mp (hpe.mem_iff.mpr hy) with hy | hy
    · exact h.cells y (hp.mem_iff.mpr (mem_cons_of_mem _ hy))
    · obtain ⟨hm, hno⟩ := mem_admitted hy
      obtain ⟨q, -, rfl⟩ := mem_map.mp hm
      refine (if_neg fun hq => hno ?_).symm
      exact h.expanding.seeded q (mem_append_left _ hq)
  · simp [Drive.withAdmitted, hj, h.resolved]
  · intro r' hr'
    rcases mem_append.mp hr' with hr' | hr'
    · exact h.stamped r' hr'
    · rw [mem_singleton.mp hr']
      refine ⟨?_, hi, hg, ha⟩
      rw [hc, hpa]
      exact h.cells x (mem_append_right _ hx)
  · have hk : r.admission = (x.1, x.2, w₀.iteration) := by
      rw [Resolved.admission, hpa, hc, hi]
    have hs₁ := (h.same.trans hs).iteration
    refine perm_iff_count.mpr fun a => ?_
    have ho := perm_iff_count.mp h.enqueued a
    have hmo := perm_iff_count.mp (hp.map fun y : String × PathCell => (y.1, y.2, w₀.iteration)) a
    simp only [map_append, map_cons, count_append, count_cons] at ho hmo
    simp only [Drive.withAdmitted, hj, hs₁, map_append, map_singleton,
      count_append, hk, count_cons, count_nil]
    omega
  · exact hre.frame
  · simp only [Drive.withAdmitted, hv, hn]
    exact hca
  · exact (h.same.trans hs).trans ⟨rfl, rfl, rfl, rfl, rfl, rfl⟩

theorem settle (hx : x ∈ d.window) :
    Driving w₀ wanted reseeds ({ d with window := d.window.erase x }.applyResolution x
      (.settled t c))
      (added ++ [⟨x.1, x.2, w₀.iteration, w₀.tenantGeneration, .settled t c⟩]) := by
  have hn : ∀ d : Drive, d.withAdmitted [] = d := by
    intro d
    simp [Drive.withAdmitted, admitted]
  rw [← h.same.iteration, ← h.same.tenantGeneration, ← hn (Drive.mk ..)]
  refine h.resolve (v := (d.walk.settle x.1 x.2 t c).logResolved x (.settled t c)) hx
    ⟨rfl, rfl, h.same.iteration, h.same.tenantGeneration, .inr rfl⟩ rfl rfl
    h.registered.settle ⟨rfl, rfl, rfl, rfl, rfl, rfl⟩ ?_
  simpa [Resolved.next] using h.card

theorem serve (hx : x ∈ d.window)
    (ha : ({ d with window := d.window.erase x }.applyResolution x
      (.served references tenants ingested)).walkAbort = none) :
    Driving w₀ wanted reseeds ({ d with window := d.window.erase x }.applyResolution x
      (.served references tenants ingested))
      (added ++ [⟨x.1, x.2, w₀.iteration, w₀.tenantGeneration,
        .served references tenants ingested⟩]) := by
  let v := (d.walk.serve x.1 references tenants ingested).logResolved x
    (.served references tenants ingested)
  let d₁ : Drive := { d with walk := v, window := d.window.erase x }
  obtain ⟨-, hc⟩ := Drive.card_of_enqueueAll (d := d₁) h.card ha
  rw [← h.same.iteration, ← h.same.tenantGeneration]
  change Driving w₀ wanted reseeds (d₁.enqueueAll (references.map (·, .reference))) _
  rw [Drive.enqueueAll_of_card hc]
  refine h.resolve (v := v) hx ⟨rfl, rfl, h.same.iteration, h.same.tenantGeneration, .inl rfl⟩
    rfl rfl h.registered.serve ⟨rfl, rfl, rfl, rfl, rfl, rfl⟩ ?_
  simp only [map_map, Function.comp_def, map_id'] at hc
  exact hc

end

end Driving

namespace Drive

variable {d d' : Drive} {fanout : Nat} {e : DriveEvent} {events : List DriveEvent}

theorem isSome_step (h : d.walkAbort.isSome) (hs : d.step fanout e = some d') :
    d'.walkAbort.isSome := by
  cases e with
  | spawn =>
    obtain ⟨evidence, he⟩ := Option.isSome_iff_exists.mp h
    simp [step, he] at hs
  | complete path answer =>
    rw [step] at hs
    split at hs
    · cases hs
      cases answer with
      | served references tenants ingested => exact isSome_enqueueAll _ h
      | settled t c => exact h
      | abortGrade grade => rfl
    · cases hs

theorem isSome_steps (h : d.walkAbort.isSome) (hs : events.foldlM (step fanout) d = some d') :
    d'.walkAbort.isSome := by
  induction events generalizing d with
  | nil =>
    cases hs
    exact h
  | cons e events ih =>
    obtain ⟨d1, hste, hs⟩ := Option.bind_eq_some_iff.mp hs
    exact ih (isSome_step h hste) hs

end Drive

namespace Driving

variable {events : List DriveEvent}

section

variable (h : Driving w₀ wanted reseeds d added)
include h

theorem complete (hx : x ∈ d.window)
    (ha : ({ d with window := d.window.erase x }.applyResolution x answer).walkAbort = none) :
    Driving w₀ wanted reseeds ({ d with window := d.window.erase x }.applyResolution x answer)
      (added ++ [⟨x.1, x.2, w₀.iteration, w₀.tenantGeneration, answer⟩]) := by
  cases answer with
  | served references tenants ingested => exact h.serve hx ha
  | settled t c => exact h.settle hx
  | abortGrade grade => cases ha

theorem step (hs : d.step fanout e = some d') (ha : d'.walkAbort = none) :
    ∃ added', Driving w₀ wanted reseeds d' added' ∧
      added'.map Resolved.told = added.map Resolved.told ++ e.answered.toList := by
  cases e with
  | spawn =>
    rw [Drive.step] at hs
    split at hs
    · rename_i x rest _ hf
      split at hs
      · cases hs
        exact ⟨added, h.spawn hf, (append_nil _).symm⟩
      · cases hs
    · cases hs
  | complete path answer =>
    rw [Drive.step] at hs
    split at hs
    · rename_i x hx
      have hm := mem_of_find?_eq_some hx
      have hp : x.1 = path := by simpa using find?_some hx
      cases hs
      refine ⟨_, h.complete hm ha, ?_⟩
      rw [map_append, ← hp]
      rfl
    · cases hs

theorem steps (hs : events.foldlM (Drive.step fanout) d = some d') (ha : d'.walkAbort = none) :
    ∃ added', Driving w₀ wanted reseeds d' added' ∧ added'.map Resolved.told =
      added.map Resolved.told ++ events.filterMap DriveEvent.answered := by
  induction events generalizing d added with
  | nil =>
    cases hs
    exact ⟨added, h, (append_nil _).symm⟩
  | cons e events ih =>
    obtain ⟨d1, hste, hs⟩ := Option.bind_eq_some_iff.mp hs
    have ha1 : d1.walkAbort = none := by
      by_contra hso
      have := Drive.isSome_steps (Option.isSome_iff_ne_none.mpr hso) hs
      rw [ha] at this
      cases this
    obtain ⟨added1, h1, ht1⟩ := h.step hste ha1
    obtain ⟨added', h', ht'⟩ := ih h1 hs
    refine ⟨added', h', ?_⟩
    rw [ht', ht1, append_assoc]
    cases he : e.answered <;> simp [he]

end

end Driving

end RioBuild.Materialize
