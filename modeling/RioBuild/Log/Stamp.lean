import RioBuild.Log.Serve

namespace RioBuild.Log

open Lib Lib.Word List ChunkVisit

/-- Lines that take a cursor to another: increasing, between the two, and without a hole
unless the second has latched a gap. -/
structure Advances (c : LineCursor) (lines : List (Nat × Line)) (c' : LineCursor) : Prop where
  increasing : lines.Pairwise fun p q => p.1 < q.1
  bounds : ∀ p ∈ lines, c.nextLine ≤ p.1 ∧ p.1 < c'.nextLine
  forward : c.nextLine ≤ c'.nextLine
  latched : c.gapCrossed = true → c'.gapCrossed = true
  contiguous : c'.gapCrossed = false →
    lines.map Prod.fst = List.range' c.nextLine (c'.nextLine - c.nextLine)

namespace Advances

theorem refl (c : LineCursor) : Advances c [] c where
  increasing := List.Pairwise.nil
  bounds := by simp
  forward := le_rfl
  latched := id
  contiguous := by simp

theorem trans (h : Advances c l c') (h' : Advances c' m c'') : Advances c (l ++ m) c'' where
  increasing := by
    refine pairwise_append.mpr ⟨h.increasing, h'.increasing, fun p hp q hq => ?_⟩
    exact (h.bounds p hp).2.trans_le (h'.bounds q hq).1
  bounds := by
    intro p hp
    rcases mem_append.mp hp with hp | hp
    · exact ⟨(h.bounds p hp).1, (h.bounds p hp).2.trans_le h'.forward⟩
    · exact ⟨h.forward.trans (h'.bounds p hp).1, (h'.bounds p hp).2⟩
  forward := h.forward.trans h'.forward
  latched := fun hg => h'.latched (h.latched hg)
  contiguous := by
    intro hg
    have hg' : c'.gapCrossed = false := by
      cases hc : c'.gapCrossed with
      | false => rfl
      | true => exact absurd (h'.latched hc) (by simp [hg])
    have h1 := h.forward
    have h2 := h'.forward
    rw [map_append, h.contiguous hg', h'.contiguous hg, show c''.nextLine - c.nextLine =
        (c'.nextLine - c.nextLine) + (c''.nextLine - c'.nextLine) by omega,
      ← range'_append_1, show c.nextLine + (c'.nextLine - c.nextLine) = c'.nextLine by omega]

theorem isPath : IsPath Advances := ⟨refl, trans⟩

theorem visit (c : LineCursor) (lines : List Line)
    (hlen : saturatingAdd first n ≤ first + lines.length)
    (hy : (visitChunk c.nextLine first n).yielded = some (yieldFrom, yieldUntil)) :
    Advances c (numberFrom yieldFrom
      ((lines.drop (yieldFrom - first)).take (yieldUntil - yieldFrom)))
      (c.advanceTo (visitChunk c.nextLine first n).advance) := by
  rcases visitChunk_cases c.nextLine first n with ⟨he, _⟩ | ⟨he, hle, hlt⟩ | ⟨he, hlt, hen⟩
  · simp [he, yielded] at hy
  · simp only [he] at hy
    obtain ⟨rfl, rfl⟩ := hy
    have hl : ((lines.drop (c.nextLine - first)).take
        (saturatingAdd first n - c.nextLine)).length = saturatingAdd first n - c.nextLine := by
      rw [length_take, length_drop]
      omega
    have hn : (c.advanceTo (visitChunk c.nextLine first n).advance).nextLine =
        saturatingAdd first n := by
      simp only [he, LineCursor.advanceTo, advance, nextLine]
      omega
    refine ⟨pairwise_numberFrom _ _, fun p hp => ?_, ?_, ?_, fun _ => ?_⟩
    · have := bounds_of_mem_numberFrom hp
      omega
    · omega
    · intro hg
      simp [LineCursor.advanceTo, hg]
    · rw [map_fst_numberFrom, hl, hn]
  · simp only [he] at hy
    obtain ⟨rfl, rfl⟩ := hy
    have hn : (c.advanceTo (visitChunk c.nextLine first n).advance).nextLine =
        saturatingAdd first n := by
      simp only [he, LineCursor.advanceTo, advance, nextLine]
      omega
    refine ⟨pairwise_numberFrom _ _, fun p hp => ?_, ?_, ?_, fun hg => ?_⟩
    · have hb := bounds_of_mem_numberFrom hp
      have := length_take_le (saturatingAdd first n - first) (lines.drop (first - first))
      omega
    · omega
    · intro hg
      simp [LineCursor.advanceTo, hg]
    · simp [he, LineCursor.advanceTo, advance] at hg

theorem advanceTo_skip {c : LineCursor} {v : ChunkVisit} (hv : v = .skip c.nextLine) :
    c.advanceTo v.advance = c := by
  subst hv
  simp [LineCursor.advanceTo, advance, nextLine]

theorem yielded_eq_none_iff : (visitChunk w f n).yielded = none ↔ visitChunk w f n = .skip w := by
  rcases visitChunk_cases w f n with ⟨he, _⟩ | ⟨he, _⟩ | ⟨he, _⟩ <;> simp [he, yielded]

theorem readChunk (h : readChunk chunk fetch remaining c = .ok (lines, c')) :
    Advances c lines c' := by
  unfold RioBuild.Log.readChunk at h
  dsimp only at h
  have hn : ∀ {l : List (Nat × Line)} {d : LineCursor},
      (Except.ok ([], c) : Except TailError _) = .ok (l, d) → Advances c l d := by
    rintro l d ⟨⟩
    exact refl c
  split_ifs at h
  · exact hn h
  · split at h
    · cases h
    · exact hn h
    · split at h
      · exact hn h
      · cases h
    · cases h
    · cases h
    · rename_i object
      split at h
      · cases h
      · simp only [visitObject] at h
        have hct : saturatingAdd chunk.firstLine (min chunk.lineCount object.length) ≤
            chunk.firstLine + object.length :=
          (saturatingAdd_le _ _).trans (Nat.add_le_add_left (min_le_right _ _) _)
        split at h
        · rename_i hy
          rw [advanceTo_skip (yielded_eq_none_iff.mp hy)] at h
          exact hn h
        · rename_i yieldFrom yieldUntil hy
          have hf : chunk.firstLine ≤ yieldFrom := by
            rcases visitChunk_cases c.nextLine chunk.firstLine
              (min chunk.lineCount object.length) with ⟨he, _⟩ | ⟨he, hle, _⟩ | ⟨he, _⟩ <;>
              simp only [he, yielded, Option.some.injEq, Prod.mk.injEq,
                reduceCtorEq] at hy <;> omega
          rw [filter_numberFrom yieldUntil object hf] at h
          injection h with h
          injection h with hl hc
          subst hl hc
          exact visit c object hct hy

end Advances

namespace Tail

theorem serves_serveManifest (t : Tail) (rows : List (ChunkRef × ObjectFetch)) :
    Serves Advances (fun _ => True) t (t.serveManifest rows) := by
  induction rows generalizing t with
  | nil => exact .stay Advances.isPath t (by simp)
  | cons row rows ih =>
    cases hr : readChunk row.1 row.2 (rows.map Prod.fst) t.cursor with
    | error e =>
      rw [serveManifest, hr]
      exact .stay Advances.isPath t fun _ _ => trivial
    | ok read =>
      rcases Serves.manifest_cons hr (Advances.readChunk hr) with ⟨u, e, heq, hs⟩ | ⟨u, heq, _, hs⟩
      · exact heq ▸ hs
      · exact heq ▸ hs.trans Advances.isPath (ih u)

theorem serves_serveVisit (t : Tail) (first : Nat) (lines : List Line) :
    Serves Advances (fun _ => True) t
      (t.serveVisit first lines (visitChunk t.cursor.nextLine first lines.length)) :=
  .visit Advances.isPath fun _ _ hy =>
    Advances.visit t.cursor lines (saturatingAdd_le first lines.length) hy

theorem serves_serveRuns (t : Tail) (runs : List (Nat × List Line)) :
    Serves Advances (fun _ => True) t (t.serveRuns runs) := by
  induction runs generalizing t with
  | nil => exact .stay Advances.isPath t (by simp)
  | cons run runs ih =>
    have hv := t.serves_serveVisit run.1 run.2
    rw [serveRuns]
    split
    · rename_i u hu
      rw [hu] at hv
      exact hv.trans Advances.isPath (ih u)
    · rename_i u e hu
      rw [hu] at hv
      exact hv

def IsClosed (t : Tail) : Prop := ∃ e, t.phase = .closed e

structure Inv (since : Nat) (Sealed : Int64 → Prop) (t : Tail) : Prop where
  sound : ∃ l c, Advances ⟨since, false⟩ l c ∧ t.lines <+: l
  opened : ¬t.IsClosed → Advances ⟨since, false⟩ t.lines t.cursor ∧
    ∀ m ∈ t.sent, m.isComplete = false
  stamped : ∀ m ∈ t.sent, m.isComplete = true → ∃ n, Sealed n ∧ n.toInt ≤ m.firstLineNumber ∧
    since ≤ m.firstLineNumber ∧ t.lines.map Prod.fst = List.range' since (m.firstLineNumber - since)

namespace Inv

theorem mk_open (ha : Advances ⟨since, false⟩ t.lines t.cursor)
    (hs : ∀ m ∈ t.sent, m.isComplete = false) : Inv since Sealed t where
  sound := ⟨_, _, ha, prefix_refl _⟩
  opened := fun _ => ⟨ha, hs⟩
  stamped := fun m hm hc => by simp [hs m hm] at hc

section

variable (h : Inv since Sealed t)
include h

section

variable (hopen : ¬t.IsClosed)
include hopen

theorem setPhase (phase : TailPhase) : Inv since Sealed { t with phase } :=
  mk_open (h.opened hopen).1 (h.opened hopen).2

theorem andThen {next : Tail → Tail} (hs : Serves Advances (fun _ => True) t r)
    (hnex : ∀ u : Tail, ¬u.IsClosed → Inv since Sealed u → Inv since Sealed (next u)) :
    Inv since Sealed (Tail.andThen r next) := by
  obtain ⟨ha, hse⟩ := h.opened hopen
  obtain ⟨u, err⟩ := r
  obtain ⟨new, hn, hu⟩ := hs.unstamped
  obtain ⟨l, c, hl, delivered, hp, hli, ho⟩ := hs.moved
  have hal : ∀ m ∈ u.sent, m.isComplete = false := by
    intro m hm
    rw [hn] at hm
    rcases mem_append.mp hm with hm | hm
    · exact hse m hm
    · exact hu m hm
  cases err with
  | none =>
    obtain ⟨rfl, rfl⟩ := ho rfl
    refine hnex u ?_ (mk_open ?_ hal)
    · rintro ⟨e, he⟩
      exact hopen ⟨e, hs.phase.symm.trans he⟩
    · rw [hli]
      exact ha.trans hl
  | some e =>
    refine ⟨⟨t.lines ++ l, c, ha.trans hl, ?_⟩, fun hne => absurd ⟨some e, rfl⟩ hne, ?_⟩
    · change u.lines <+: _
      rw [hli]
      exact (prefix_append_right_inj _).mpr hp
    · intro m hm hc
      simp [hal m hm] at hc

theorem serveBatch (fan : FanBatch) :
    Inv since Sealed (t.serveBatch fan (t.visitBatch fan).visit) :=
  h.andThen hopen (t.serves_serveVisit _ _) fun _ hu hi => hi.setPhase hu _

theorem revisit (pending : Option FanBatch) : Inv since Sealed (t.revisit pending) := by
  cases pending with
  | none => exact h.setPhase hopen _
  | some fan =>
    rw [Tail.revisit]
    split
    · exact h.setPhase hopen _
    · exact h.serveBatch hopen fan

end

theorem onManifest (rows : List (ChunkRef × ObjectFetch)) :
    Inv since Sealed (t.onManifest rows) := by
  have hs := t.serves_serveManifest rows
  unfold Tail.onManifest
  cases hp : t.phase with
  | history =>
    have hopen : ¬t.IsClosed := by simp [IsClosed, hp]
    refine h.andThen hopen hs fun u hu hi => ?_
    split
    · exact hi.setPhase hu _
    · refine hi.andThen hu (u.serves_serveRuns _) fun v hv hi => ?_
      split
      · obtain ⟨ha, hse⟩ := hi.opened hv
        refine mk_open ?_ fun m hm => ?_
        · change Advances _ (v.sendIgnored _).lines (v.sendIgnored _).cursor
          rw [lines_sendIgnored, cursor_sendIgnored]
          exact ha
        · rcases mem_sendIgnored hm with hm | rfl
          · exact hse m hm
          · rfl
      · exact hi.setPhase hv _
  | backfill snapshot pending =>
    have hopen : ¬t.IsClosed := by simp [IsClosed, hp]
    refine h.andThen hopen hs fun u hu hi => ?_
    exact hi.andThen hu (u.serves_serveRuns _) fun v hv hi => hi.revisit hv pending
  | catchUp =>
    have hopen : ¬t.IsClosed := by simp [IsClosed, hp]
    exact h.andThen hopen hs fun u hu hi => hi.setPhase hu _
  | live | awaitSnapshot pending | claim | closed e => exact h

end

end Inv

end Tail

theorem toInt_le_toUInt64 (n : Int64) : n.toInt ≤ n.toUInt64.toNat := by
  have := n.toBitVec.toInt_eq_toNat_cond
  change n.toBitVec.toInt ≤ n.toBitVec.toNat
  split at this <;> omega

namespace Tail.Inv

theorem claim (h : Inv since Sealed t) (hopen : ¬t.IsClosed) {sealed : Option Int64}
    (chunks : List (Int × Int)) (hsl : ∀ n ∈ sealed, Sealed n) :
    Inv since Sealed { t.sendIgnored ⟨t.execId, [], (sealedClaim t.cursor sealed chunks).cursorNext,
      (sealedClaim t.cursor sealed chunks).complete⟩ with phase := .closed none } := by
  obtain ⟨ha, hs⟩ := h.opened hopen
  have hl := lines_sendIgnored t (sealedClaim t.cursor sealed chunks).cursorNext
    (sealedClaim t.cursor sealed chunks).complete
  refine ⟨⟨t.lines, t.cursor, ha, hl ▸ prefix_refl _⟩,
    fun hne => absurd ⟨none, rfl⟩ hne, fun m hm hc => ?_⟩
  rcases mem_sendIgnored hm with hm | rfl
  · simp [hs m hm] at hc
  · simp only [sealedClaim, finalClaim, Bool.and_eq_true, Bool.not_eq_true'] at hc
    obtain ⟨hb, hg⟩ := hc
    cases sealed with
    | none => simp at hb
    | some n =>
      simp only [Option.map_some, Bool.and_eq_true, decide_eq_true_eq] at hb
      refine ⟨n, hsl n rfl, ?_, ha.forward, hl ▸ ha.contiguous hg⟩
      have := toInt_le_toUInt64 n
      simp only [sealedClaim, finalClaim]
      omega

theorem step (h : Inv since Sealed t) (e : TailEvent)
    (hs : ∀ n chunks, e = .claim (some (some n, chunks)) → Sealed n) :
    Inv since Sealed (t.step e) := by
  have hopen : ∀ phase, t.phase = phase → (∀ e, phase ≠ .closed e) → ¬t.IsClosed := by
    rintro phase rfl hne ⟨e, he⟩
    exact hne e he
  cases e with
  | manifest rows =>
    cases rows with
    | some rows => exact h.onManifest rows
    | none =>
      rw [Tail.step]
      split_ifs with ha
      · refine h.setPhase (fun ⟨e, he⟩ => ?_) _
        simp [awaitsManifest, he] at ha
      · exact h
  | batch fan =>
    rw [Tail.step]
    split
    · rename_i hp
      have hl := hopen _ hp (by simp)
      split
      · exact h.setPhase hl _
      · exact h.serveBatch hl fan
    · exact h
  | woken =>
    rw [Tail.step]
    split
    · rename_i hp
      split
      · exact h.setPhase (hopen _ hp (by simp)) _
      · exact h
    · exact h
  | wakeClosed =>
    rw [Tail.step]
    split
    · exact ⟨h.sound, h.opened, h.stamped⟩
    · exact h
  | ended | clientGone | snapshot lines =>
    rw [Tail.step]
    split
    · rename_i hp
      exact h.setPhase (hopen _ hp (by simp)) _
    · exact h
  | claim answer =>
    unfold Tail.step
    dsimp only
    split
    · rename_i sealed chunks hp
      refine h.claim (hopen _ hp (by simp)) chunks fun n hn => ?_
      exact hs n chunks (by rw [Option.mem_def.mp hn])
    · rename_i hp
      exact h.setPhase (hopen _ hp (by simp)) _
    · exact h

theorem start (execId : String) (since : Nat) (follow : Bool)
    (subscription : Option (List (Nat × Line))) (room : Nat) :
    Inv since Sealed (Tail.start execId since follow subscription room) :=
  mk_open (.refl _) (by simp [Tail.start])

theorem run (h : Inv since Sealed t) (events : List TailEvent)
    (hs : ∀ n chunks, .claim (some (some n, chunks)) ∈ events → Sealed n) :
    Inv since Sealed (t.run events) := by
  induction events generalizing t with
  | nil => exact h
  | cons e events ih =>
    have hst : Inv since Sealed (t.step e) :=
      h.step e fun n chunks he => hs n chunks (he ▸ mem_cons_self)
    exact ih hst fun n chunks hm => hs n chunks (mem_cons_of_mem _ hm)

end Tail.Inv

/-- Whatever a reader is shown, it sends increasing lines from where it was asked to, and a
message that says the log is complete was preceded by every line from there up to the end it
names, which is not before a recorded end. -/
theorem Tail.completeness_stamp_truthful (execId : String) (since : Nat) (follow : Bool)
    (subscription : Option (List (Nat × Line))) (room : Nat) (events : List TailEvent) :
    let t := (Tail.start execId since follow subscription room).run events
    t.lines.Pairwise (fun p q => p.1 < q.1) ∧ (∀ p ∈ t.lines, since ≤ p.1) ∧
    ∀ m ∈ t.sent, m.isComplete = true →
      (∃ n chunks, TailEvent.claim (some (some n, chunks)) ∈ events ∧ n.toInt ≤ m.firstLineNumber) ∧
      since ≤ m.firstLineNumber ∧
      t.lines.map Prod.fst = range' since (m.firstLineNumber - since) := by
  intro t
  have hi : Inv since (fun n => ∃ chunks, TailEvent.claim (some (some n, chunks)) ∈ events) t :=
    (Inv.start execId since follow subscription room).run events fun n chunks h => ⟨chunks, h⟩
  obtain ⟨l, c, ha, hpr⟩ := hi.sound
  refine ⟨ha.increasing.sublist hpr.sublist, fun p hp => (ha.bounds p (hpr.subset hp)).1,
    fun m hm hc => ?_⟩
  obtain ⟨n, ⟨chunks, hcl⟩, hn, hs, hl⟩ := hi.stamped m hm hc
  exact ⟨⟨n, chunks, hcl, hn⟩, hs, hl⟩

end RioBuild.Log
