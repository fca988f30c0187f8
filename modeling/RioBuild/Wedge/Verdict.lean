import RioBuild.Wedge.Window

namespace RioBuild.Wedge

open Lib WedgeTracker

variable {t : WedgeTracker} {now : ℚ} {p : WedgePopulations}

def WedgeVerdict.sharedCause : WedgeVerdict → Bool
  | .systemic _ _ _ .ratio => true
  | .systemic _ _ _ .breadth => true
  | .systemic _ _ _ .dwell => false
  | .nodeWedged _ => false
  | .unobserved => false

def WedgeVerdict.lists (n : String) : WedgeVerdict → Bool
  | .nodeWedged nodes => n ∈ nodes
  | .systemic .. => false
  | .unobserved => false

def WedgeTracker.axis (t : WedgeTracker) : Option SuppressionAxis := t.episode.map (·.axis)

def WedgeTracker.latch (t : WedgeTracker) (now : ℚ) : Suppression where
  setAt := now
  maxExpiryPg := max (((t.lastSuppression.filter (·.live now)).map (·.maxExpiryPg)).getD 0)
    t.evidence.maxExpiry

structure Drains (t t' : WedgeTracker) (now : ℚ) : Prop where
  evidence : t'.evidence = ∅
  lastSuppression : t'.lastSuppression = some (t.latch now)

structure Keeps (t t' : WedgeTracker) : Prop where
  evidence : t'.evidence = t.evidence
  lastSuppression : t'.lastSuppression = t.lastSuppression

theorem expiry_le_latch (h : t.evidence.entry n d = some e) :
    e.expiryPg ≤ (t.latch now).maxExpiryPg :=
  (Window.expiry_le_maxExpiry h).trans (le_max_right ..)

theorem le_latch (h : t.lastSuppression = some w) (hl : w.live now) :
    w.maxExpiryPg ≤ (t.latch now).maxExpiryPg := by
  simp [latch, h, Option.filter, hl]

theorem latch_idem (hs : w.setAt = now) (he : t.evidence = ∅)
    (h : t.lastSuppression = some w) : t.latch now = w := by
  have hl : w.live now = true := by simp [Suppression.live, hs, wedgeClusterWindowSecs]
  have hm : Window.maxExpiry ∅ = 0 := rfl
  cases w
  simp_all [latch, Option.filter]

inductive Finalized (t : WedgeTracker) (p : WedgePopulations) (now : ℚ) (t' : WedgeTracker) :
    WedgeVerdict → Prop
  | drained (v : WedgeVerdict) : Drains t t' now → t'.axis ≠ some .breadth →
      (∀ n, v.lists n = false) → t.engaging p now = some .ratio ∨ t.axis = some .breadth →
      Finalized t p now t' v
  | breadth : Keeps t t' → t'.axis = some .breadth → t.engaging p now = some .breadth →
      Finalized t p now t' (.systemic p.wedged.card p.population p.breadth .breadth)
  | dwell : Keeps t t' → t.axis ≠ some .breadth → t'.axis ≠ some .breadth →
      t.engaging p now = some .dwell →
      Finalized t p now t' (.systemic p.wedged.card p.population p.breadth .dwell)
  | judged : Keeps t t' → t.axis ≠ some .breadth → t'.axis ≠ some .breadth →
      t.engaging p now = none → Finalized t p now t' (.nodeWedged p.wedged)

theorem Finalized.keeps_or_drains (h : Finalized t p now t' v) :
    Keeps t t' ∨ Drains t t' now ∧ (t.engaging p now = some .ratio ∨ t.axis = some .breadth) := by
  cases h with
  | drained _ hd _ _ hw => exact .inr ⟨hd, hw⟩
  | breadth hk _ _ | dwell hk _ _ _ | judged hk _ _ _ => exact .inl hk

theorem Finalized.engaging_of_breadth (h : Finalized t p now t' v)
    (ha : t'.axis = some .breadth) : t.engaging p now = some .breadth := by
  cases h with
  | drained _ _ hne _ _ | dwell _ _ hne _ | judged _ _ hne _ => exact absurd ha hne
  | breadth _ _ he => exact he

theorem engaging_ne_dwell (h : t.lastSuppression = none) : t.engaging p now ≠ some .dwell := by
  unfold engaging
  simp only [h]
  split
  · simp
  · split <;> simp

theorem engage_evicted (axis : SuppressionAxis) : (t.engage axis now).evicted = t.evicted := by
  unfold engage
  split <;> rfl

theorem engage_axis (t : WedgeTracker) (now : ℚ) (axis : SuppressionAxis) :
    (t.engage axis now).axis = some axis := by
  unfold engage
  split <;> rfl

theorem engage_cases (t : WedgeTracker) (now : ℚ) (axis : SuppressionAxis) :
    (Drains t (t.engage axis now) now ∧ axis ≠ .breadth ∧
      (axis = .ratio ∨ t.axis = some .breadth)) ∨
    (Keeps t (t.engage axis now) ∧ axis ≠ .ratio ∧ (axis = .breadth ∨ t.axis ≠ some .breadth)) := by
  obtain ⟨evidence, marked, lastSuppression, evicted, episode⟩ := t
  cases episode with
  | none =>
    cases axis with
    | ratio => exact .inl ⟨⟨rfl, rfl⟩, by simp, .inl rfl⟩
    | breadth => exact .inr ⟨⟨rfl, rfl⟩, by simp, .inl rfl⟩
    | dwell => exact .inr ⟨⟨rfl, rfl⟩, by simp, .inr (by simp [axis])⟩
  | some prior =>
    obtain ⟨engagedAt, prior⟩ := prior
    cases prior with
    | ratio | dwell =>
      cases axis with
      | ratio => exact .inl ⟨⟨rfl, rfl⟩, by simp, .inl rfl⟩
      | breadth => exact .inr ⟨⟨rfl, rfl⟩, by simp, .inl rfl⟩
      | dwell => exact .inr ⟨⟨rfl, rfl⟩, by simp, .inr (by simp [axis])⟩
    | breadth =>
      cases axis with
      | ratio =>
        refine .inl ⟨⟨rfl, ?_⟩, by simp, .inl rfl⟩
        exact congrArg some (latch_idem rfl rfl rfl)
      | breadth => exact .inr ⟨⟨rfl, rfl⟩, by simp, .inl rfl⟩
      | dwell => exact .inl ⟨⟨rfl, rfl⟩, by simp, .inr rfl⟩

theorem release_cases (t : WedgeTracker) (now : ℚ) :
    (Drains t (t.release now).1 now ∧ (t.release now).2 = some .breadth ∧ t.axis = some .breadth) ∨
    (Keeps t (t.release now).1 ∧ (t.release now).2 = none ∧ t.axis ≠ some .breadth) := by
  obtain ⟨evidence, marked, lastSuppression, evicted, episode⟩ := t
  cases episode with
  | none => exact .inr ⟨⟨rfl, rfl⟩, rfl, by simp [axis]⟩
  | some prior =>
    obtain ⟨engagedAt, prior⟩ := prior
    cases prior with
    | ratio | dwell => exact .inr ⟨⟨rfl, rfl⟩, rfl, by simp [axis]⟩
    | breadth => exact .inl ⟨⟨rfl, rfl⟩, rfl, rfl⟩

theorem release_rest (t : WedgeTracker) (now : ℚ) :
    (t.release now).1.evicted = t.evicted ∧ (t.release now).1.axis = none := by
  unfold release axis
  split
  · exact ⟨rfl, rfl⟩
  · rename_i hn
    exact ⟨rfl, by rw [hn]; rfl⟩

theorem finalize_evicted : (t.finalize (some p) now).1.evicted = t.evicted := by
  unfold finalize
  split
  · rfl
  · split
    · exact engage_evicted _
    · have hre := (release_rest t now).1
      split
      · rename_i hr
        rwa [hr] at hre
      · rename_i hr
        rw [hr] at hre
        exact hre

theorem finalize_cases :
    Finalized t p now (t.finalize (some p) now).1 (t.finalize (some p) now).2 := by
  cases he : t.engaging p now with
  | some axis =>
    have heq : t.finalize (some p) now =
        (t.engage axis now, .systemic p.wedged.card p.population p.breadth axis) := by
      simp [finalize, he]
    rw [heq]
    have ha := engage_axis t now axis
    rcases engage_cases t now axis with ⟨hd, hne, hw⟩ | ⟨hk, hne, hw⟩
    · refine .drained _ hd (by simpa [ha] using hne) (fun _ => rfl) ?_
      rcases hw with rfl | hb
      · exact .inl he
      · exact .inr hb
    · cases axis with
      | ratio => exact absurd rfl hne
      | breadth => exact .breadth hk ha he
      | dwell =>
        exact .dwell hk (hw.resolve_left (by simp)) (by simp [ha]) he
  | none =>
    obtain ⟨-, ha⟩ := release_rest t now
    rcases release_cases t now with ⟨hd, hc, hb⟩ | ⟨hk, hc, hb⟩
    · have heq : t.finalize (some p) now = ((t.release now).1,
          .systemic p.wedged.card p.population p.breadth .breadth) := by
        simp only [finalize, he]
        rw [← Prod.eta (t.release now), hc]
      rw [heq]
      exact .drained _ hd (by simp [ha]) (fun _ => rfl) (.inr hb)
    · have heq : t.finalize (some p) now =
          ((t.release now).1.apply ⟨.retain, .keep, .replaceWith p.wedged, none⟩ now,
            .nodeWedged p.wedged) := by
        simp only [finalize, he]
        rw [← Prod.eta (t.release now), hc]
      rw [heq]
      refine .judged ⟨hk.evidence, hk.lastSuppression⟩ hb ?_ he
      change (t.release now).1.axis ≠ _
      simp [ha]

end RioBuild.Wedge
