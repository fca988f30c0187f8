import RioBuild.Log.RelayRun

namespace RioBuild.Log

open Lib Lib.Word List

theorem relayedLines_of_tiles (h : Tiles a (spans messages) b) (hg : ∀ x y, .gap x y ∉ messages) :
    (relayedLines messages).map Prod.fst = List.range' a (b - a) := by
  induction messages generalizing a with
  | nil =>
    obtain rfl : a = b := h
    simp [relayedLines]
  | cons m messages ih =>
    have hr : ∀ x y, .gap x y ∉ messages := fun x y hm => hg x y (mem_cons_of_mem _ hm)
    cases m with
    | lines first ls =>
      obtain ⟨rfl, _, ht⟩ := h
      have hle := Tiles.le ht
      have hs : b - first = ls.length + (b - (first + ls.length)) := by omega
      change (numberFrom first ls ++ relayedLines messages).map Prod.fst = _
      rw [map_append, map_fst_numberFrom, ih ht hr, hs, range'_append_1]
    | gap x y => exact absurd mem_cons_self (hg x y)
    | truncation | degraded => exact ih h hr

namespace RelayAccount

variable {o o' : RelayAccount} {c : TailLogChunk}

theorem Relays.floor_le (h : Relays o ha o' ha') : o.floor ≤ o'.floor := by
  obtain ⟨_, _, hac⟩ := h.out
  exact hac.tiles.le

theorem Relays.stop_le (h : Relays o c.numbered o' []) (hfs : c.firstLineNumber ≤ o.floor) :
    c.firstLineNumber + c.lines.length ≤ o'.floor := by
  obtain ⟨messages, _, ha⟩ := h.out
  have hf := ha.tiles.le
  by_contra hlt
  -- the chunk has a line at the new watermark, which can be neither relayed nor withheld
  have hm : o'.floor ∈ c.numbered.map Prod.fst := by
    rw [TailLogChunk.numbered, map_fst_numberFrom]
    exact mem_range'_1.mpr (by omega)
  obtain ⟨q, hq, heq⟩ := mem_map.mp hm
  rcases ha.kept q (mem_append_right _ hq) (heq ▸ hf) with hr | ⟨_, hr⟩
  · obtain ⟨s, hs, hse⟩ := mem_map.mp hr
    have := Tiles.lt_of_relayed ha.tiles hs
    omega
  · obtain ⟨s, hs, hse⟩ := mem_map.mp hr
    rw [append_nil] at hs
    cases hp : o'.pendingGap with
    | none => simp [withheld_of_none hp] at hs
    | some p =>
      have hpo := h.ok.pending p hp
      rw [withheld_of_some hp, hpo.withheldFrom] at hs
      have := (bounds_of_mem_numberFrom hs).1
      have := hpo.lt
      omega

end RelayAccount

namespace Relay

variable {r : Relay} {e : RelayEvent} {execId : String} {n : Nat}
variable {servedComplete : Bool}

/-- The store's word: a chunk of the execution says that the log is complete only if its lines
on the stream run from the line the stream was opened at to the sealed count or past it. -/
def Truthful (execId : String) (n : Nat) (r : Relay) (e : RelayEvent) : Prop :=
  match r.phase, e with
  | .driving entry seen, .chunk c _ _ => isOwn execId c → c.isComplete →
    (seen ++ c.numbered).map Prod.fst = List.range' (sinceLine entry) (seen ++ c.numbered).length ∧
      n ≤ sinceLine entry + (seen ++ c.numbered).length
  | _, _ => True

def isTruthful (execId : String) (n : Nat) (r : Relay) (e : RelayEvent) : Bool :=
  match r.phase, e with
  | .driving entry seen, .chunk c _ _ => decide (isOwn execId c → c.isComplete →
    (seen ++ c.numbered).map Prod.fst = List.range' (sinceLine entry) (seen ++ c.numbered).length ∧
      n ≤ sinceLine entry + (seen ++ c.numbered).length)
  | _, _ => true

theorem isTruthful_iff : r.isTruthful execId n e = true ↔ r.Truthful execId n e := by
  unfold isTruthful Truthful
  split
  · exact decide_eq_true_iff
  · exact iff_of_true rfl trivial

instance (r : Relay) (e : RelayEvent) : Decidable (r.Truthful execId n e) :=
  decidable_of_iff _ isTruthful_iff

def TruthfulRun (execId : String) (n : Nat) : Relay → List RelayEvent → Prop
  | _, [] => True
  | r, e :: events => r.Truthful execId n e ∧ TruthfulRun execId n (r.step execId e) events

instance instDecidableTruthfulRun :
    (r : Relay) → (events : List RelayEvent) → Decidable (TruthfulRun execId n r events)
  | _, [] => .isTrue trivial
  | r, e :: events =>
    have := instDecidableTruthfulRun (r.step execId e) events
    inferInstanceAs (Decidable (r.Truthful execId n e ∧ _))

theorem carries_true (execId : String) (e : RelayEvent) : e.Carries execId fun _ => True := by
  cases e with
  | chunk => exact fun _ _ _ => trivial
  | _ => trivial

structure Closed (n : Nat) (r : Relay) (cause : TailStopCause) (N : Nat) : Prop where
  tiles : Tiles 0 (spans r.account.sent) N
  disclosed : r.account.sent.getLast? = some (.truncation N) ∨ n ≤ N
  cause : r.graceExpired ∨ cause = .orphaned ∨ cause = .permanentErr ∨ n ≤ N

structure Told (n : Nat) (r : Relay) : Prop where
  complete : r.phase ≠ .dropped → r.servedComplete → n ≤ r.account.floor
  driving : ∀ {entry seen}, r.phase = .driving entry seen →
    seen.map Prod.fst = List.range' (sinceLine entry) seen.length →
    sinceLine entry + seen.length ≤ r.account.floor
  exited : ∀ {cause}, r.phase = .exited cause → ∃ N, Closed n r cause N

theorem Concludes.told (h : Concludes o servedComplete r) (ho : o.Good IsLine)
    (hcp : servedComplete → n ≤ o.floor) : r.Told n := by
  obtain ⟨o', hn, he⟩ := h.out
  have hcp' := h.complete
  obtain ⟨hg, hf⟩ : o'.Good IsLine ∧ o'.floor = o.floor := by
    rcases hn with rfl | ⟨start, elapsed, lane, rfl⟩
    · exact ⟨ho, rfl⟩
    · exact ⟨ho.notice rfl, rfl⟩
  have hr : o'.Relays [] o'.flushPendingGap [] :=
    RelayAccount.relays_flushPendingGap hg.ok (by simp)
  have hflu := hr.floor_le
  rcases he with ⟨hp, ha⟩ | ⟨cause, hp, ha, hca⟩
  · refine ⟨fun _ hc => ?_, by simp [hp], by simp [hp]⟩
    rw [ha, hf]
    exact hcp (hcp' ▸ hc)
  · have hs : r.account.sent = o'.flushPendingGap.sent ++
        if servedComplete then [] else [.truncation o'.flushPendingGap.floor] :=
      RelayAccount.sent_of_trace (by rw [ha]; rfl)
    have hle (hc : servedComplete) : n ≤ o'.flushPendingGap.floor := by
      have := hcp hc
      omega
    refine ⟨fun _ hc => ?_, by simp [hp], fun hca' => ⟨o'.flushPendingGap.floor, ?_, ?_, ?_⟩⟩
    · rw [ha]
      exact hle (hcp' ▸ hc)
    · rw [hs, spans_append]
      refine hg.flushPendingGap.inv.tiles.append ?_
      cases servedComplete <;> rfl
    · cases hc : servedComplete with
      | true => exact .inr (hle hc)
      | false =>
        left
        rw [hs, hc]
        simp
    · obtain rfl : cause = _ := RelayPhase.exited.inj (hp.symm.trans hca')
      exact hca.imp_right fun h => h.imp_right fun h => h.imp_right hle

theorem Told.of_running (hc : r.servedComplete → n ≤ r.account.floor) (hr : r.ended = false)
    (hd : ∀ {entry seen}, r.phase = .driving entry seen →
      seen.map Prod.fst = List.range' (sinceLine entry) seen.length →
      sinceLine entry + seen.length ≤ r.account.floor) : r.Told n :=
  ⟨fun _ => hc, hd, fun h => by simp [ended, h] at hr⟩

theorem numbered_of_seen {c : TailLogChunk}
    (h : (seen ++ c.numbered).map Prod.fst = List.range' s (seen ++ c.numbered).length) :
    seen.map Prod.fst = List.range' s seen.length ∧
      (c.lines = [] ∨ c.firstLineNumber = s + seen.length) := by
  rw [map_append, length_append, ← range'_append_1] at h
  obtain ⟨hs, hr⟩ := append_inj h (by simp)
  refine ⟨hs, ?_⟩
  cases hc : c.lines with
  | nil => exact .inl rfl
  | cons l ls =>
    right
    simp only [TailLogChunk.numbered, hc, numberFrom_cons, map_cons, length_cons,
      range'_succ, cons.injEq] at hr
    exact hr.1

theorem Told.seen_le (h : r.Told n) (hp : r.phase = .driving entry seen)
    (hr : RelayAccount.Relays (r.account.receive c) c.numbered o [])
    (hc : (seen ++ c.numbered).map Prod.fst =
      List.range' (sinceLine entry) (seen ++ c.numbered).length) :
    sinceLine entry + (seen ++ c.numbered).length ≤ o.floor := by
  have hfl : r.account.floor ≤ o.floor := hr.floor_le
  obtain ⟨hs, hn⟩ := numbered_of_seen hc
  have hle := h.driving hp hs
  rw [length_append, TailLogChunk.numbered, length_numberFrom]
  rcases hn with hni | hf
  · rw [hni, length_nil]
    omega
  · have : c.firstLineNumber + c.lines.length ≤ o.floor :=
      hr.stop_le (hf ▸ hle)
    omega

theorem Told.step (h : r.Told n) (hi : r.Inv fun _ => True) (hf : e.Fits execId)
    (he : r.Truthful execId n e) : (r.step execId e).Told n := by
  generalize hr' : r.step execId e = r'
  have hs := steps_step execId r e
  rw [hr'] at hs
  have hd (hru : r.ended = false) : r.phase ≠ .dropped :=
    fun hd => by simp [ended, hd] at hru
  cases hs with
  | quiet ha hcp hp =>
    have hcp' (hru : r.ended = false) (hc : r'.servedComplete) : n ≤ r'.account.floor := by
      rw [ha]
      exact h.complete (hd hru) (hcp ▸ hc)
    rcases hp with ⟨hp, hsa⟩ | ⟨hru, hp⟩
    · by_cases hen : r.ended
      · exact hsa hen ▸ h
      · have hru : r.ended = false := Bool.eq_false_iff.mpr hen
        refine .of_running (hcp' hru) ?_ fun hdv hse => ?_
        · rw [ended, hp]
          exact hru
        · rw [ha]
          exact h.driving (hp ▸ hdv) hse
    · refine .of_running (hcp' hru) ?_ fun hdv _ => ?_
      · rcases hp with hp | hp | hp <;> simp [ended, hp]
      · rcases hp with hp | hp | hp
        · simp [hp] at hdv
        · simp [hp] at hdv
        · obtain ⟨rfl, rfl⟩ := RelayPhase.driving.inj (hp.symm.trans hdv)
          rw [ha]
          exact le_rfl
  | concludes hru hend =>
    exact hend.told (hi.running (hd hru)) (h.complete (hd hru))
  | @chunk entry seen c _ _ _ _ o _ hp ho hl hres =>
    have hg := hi.running (by simp [hp])
    have hre := hg.ok.relays_receive (hf ho) hl
    have hcp (hc : c.isComplete) : n ≤ o.floor := by
      have ht := he
      simp only [Truthful, hp] at ht
      obtain ⟨hco, hn⟩ := ht ho hc
      exact hn.trans (h.seen_le hp hre hco)
    rcases hres with ⟨ha, hcp', hp'⟩ | hend
    · refine .of_running (fun hc => ?_) (by simp [ended, hp']) fun hdv hco => ?_
      · rw [ha]
        exact hcp (hcp' ▸ hc)
      · obtain ⟨rfl, rfl⟩ := RelayPhase.driving.inj (hp'.symm.trans hdv)
        rw [ha]
        exact h.seen_le hp hre hco
    · exact hend.told (hg.chunk (hf ho) (fun _ _ => trivial) hl) hcp
  | dropped hru ha hp =>
    exact ⟨fun hne => absurd hp hne, by simp [hp], by simp [hp]⟩

theorem Told.foldl (h : r.Told n) (hi : r.Inv fun _ => True)
    (hf : ∀ e ∈ events, e.Fits execId) (he : TruthfulRun execId n r events) :
    (events.foldl (Relay.step execId) r).Told n := by
  induction events generalizing r with
  | nil => exact h
  | cons e events ih =>
    obtain ⟨hfit, hf⟩ := forall_mem_cons.mp hf
    exact ih (h.step hi hfit he.1) (hi.step hfit (carries_true execId e)) hf he.2

/-- A task that returns has, as its last word, a truncation marker at the first number no
message accounts for, or has accounted for every line below the sealed count. -/
theorem tail_never_ends_silently_short (execId : String) (n : Nat) (events : List RelayEvent)
    (hfits : ∀ e ∈ events, e.Fits execId) (htruthful : TruthfulRun execId n {} events)
    (cause : TailStopCause) (hexit : (run execId events).phase = .exited cause) :
    ∃ N, Tiles 0 (spans (run execId events).account.sent) N ∧
      ((run execId events).account.sent.getLast? = some (.truncation N) ∨ n ≤ N) ∧
      ((∀ a b, .gap a b ∉ (run execId events).account.sent) →
        (relayedLines (run execId events).account.sent).map Prod.fst = List.range' 0 N) ∧
      ((run execId events).graceExpired ∨ cause = .orphaned ∨ cause = .permanentErr ∨ n ≤ N) := by
  have hs : Told n {} := .of_running (by simp) rfl (by simp)
  obtain ⟨N, hc⟩ := (hs.foldl Inv.start hfits htruthful).exited hexit
  exact ⟨N, hc.tiles, hc.disclosed, relayedLines_of_tiles hc.tiles, hc.cause⟩

def servedToTheEnd : List RelayEvent :=
  [.loopTop ⟨false, none⟩, .openFailed true ⟨false, some 40⟩, .backoffEnds,
    .loopTop ⟨false, none⟩, .opened, .chunk ⟨"exec", [[0], [1]], 0, false⟩ false ⟨false, none⟩,
    .chunk ⟨"other", [[9]], 2, true⟩ false ⟨false, none⟩,
    .streamEnds ⟨false, none⟩, .backoffEnds, .loopTop ⟨false, none⟩, .opened, .terminal,
    .chunk ⟨"exec", [[2]], 2, true⟩ false ⟨false, none⟩, .streamEnds ⟨false, none⟩]

theorem tail_not_silently_short_servedToTheEnd : (run "exec" servedToTheEnd).account.sent =
        [.degraded 0 40 "session token rejected", .lines 0 [[0], [1]], .lines 2 [[2]]] ∧
      ∃ N, Tiles 0 (spans (run "exec" servedToTheEnd).account.sent) N ∧
        ((run "exec" servedToTheEnd).account.sent.getLast? = some (.truncation N) ∨ 3 ≤ N) := by
  obtain ⟨N, ht, he, _⟩ := tail_never_ends_silently_short "exec" 3 servedToTheEnd
    (by decide +kernel) (by decide +kernel) .naturalEnd (by decide +kernel)
  exact ⟨by decide +kernel, N, ht, he⟩

end Relay

end RioBuild.Log
