import RioBuild.Log.RelayAccount

namespace RioBuild.Log

open Lib Lib.Word List

namespace RelayAccount

variable {o o' : RelayAccount} {c : TailLogChunk} {pos : Nat}
variable {messages : List RelayMessage}
variable {IsLine : Nat × Line → Prop}

def received (o : RelayAccount) : List (Nat × Line) :=
  o.trace.flatMap fun
    | .received _ lines => lines
    | .sent _ => []

def Unmarked : RelayEntry → RelayEntry → Prop
  | .received _ lines, .sent (.gap gapFrom gapUntil) =>
    ∀ p ∈ lines, p.1 < gapFrom ∨ gapUntil ≤ p.1
  | _, _ => True

structure Inv (IsLine : Nat × Line → Prop) (o : RelayAccount) (pos : Nat)
    (hand : List (Nat × Line)) : Prop where
  isLine : ∀ p ∈ o.received, IsLine p
  tiles : Tiles 0 (spans o.sent) pos
  relayed : ∀ p ∈ relayedLines o.sent, p ∈ o.received
  held : ∀ p ∈ o.withheld ++ hand, p ∈ o.received
  seen : ∀ p ∈ o.received, pos ≤ p.1 → p.1 ∈ (o.withheld ++ hand).map Prod.fst
  unmarked : o.trace.Pairwise Unmarked
  kept : ∀ {w lines}, .received w lines ∈ o.trace → ∀ p ∈ lines, w ≤ p.1 →
    p.1 ∈ (relayedLines o.sent).map Prod.fst ∨ pos ≤ p.1 ∧ p.1 ∈ (o.withheld ++ hand).map Prod.fst

theorem sent_of_trace (h : o'.trace = o.trace ++ messages.map .sent) :
    o'.sent = o.sent ++ messages := by
  rw [sent, h, filterMap_append, filterMap_map]
  congr 1
  exact filterMap_some

theorem received_of_trace (h : o'.trace = o.trace ++ messages.map .sent) :
    o'.received = o.received := by
  simp [received, h]

namespace Inv

theorem start : ({} : RelayAccount).Inv IsLine 0 [] where
  isLine := by simp [received]
  tiles := rfl
  relayed := by simp [sent, relayedLines]
  held := by simp [withheld]
  seen := by simp [received]
  unmarked := .nil
  kept := by simp

theorem receive (h : o.Inv IsLine o.floor []) (hc : ∀ p ∈ c.numbered, IsLine p) :
    (o.receive c).Inv IsLine o.floor c.numbered := by
  have hs : (o.receive c).sent = o.sent := by
    simp [sent, RelayAccount.receive]
  have hr : (o.receive c).received = o.received ++ c.numbered := by
    simp [received, RelayAccount.receive]
  have hw : (o.receive c).withheld = o.withheld := rfl
  refine ⟨fun p hp => ?_, hs ▸ h.tiles, fun p hp => ?_, fun p hp => ?_, fun p hp hle => ?_, ?_, ?_⟩
  · rw [hr] at hp
    exact (mem_append.mp hp).elim (h.isLine p) (hc p)
  · rw [hs] at hp
    rw [hr]
    exact mem_append_left _ (h.relayed p hp)
  · rw [hr]
    rcases mem_append.mp hp with hp | hp
    · exact mem_append_left _ (h.held p (mem_append_left _ hp))
    · exact mem_append_right _ hp
  · rw [hr] at hp
    rw [map_append, mem_append]
    rcases mem_append.mp hp with hp | hp
    · have := h.seen p hp hle
      rw [append_nil] at this
      exact .inl this
    · exact .inr (mem_map_of_mem hp)
  · refine pairwise_append.mpr ⟨h.unmarked, pairwise_singleton _ _, ?_⟩
    rintro (⟨w, ls⟩ | m) _ e he
    · obtain rfl := mem_singleton.mp he
      trivial
    · trivial
  · intro w ls hm p hp hle
    rw [hs, map_append, mem_append]
    rcases mem_append.mp hm with hm | hm
    · have := h.kept hm p hp hle
      rw [append_nil] at this
      exact this.imp_right fun h => ⟨h.1, .inl h.2⟩
    · obtain ⟨rfl, rfl⟩ : w = o.floor ∧ ls = c.numbered := by simpa using hm
      exact .inr ⟨hle, .inr (mem_map_of_mem hp)⟩

theorem sends (h : o.Inv IsLine pos hand) (ht : o'.trace = o.trace ++ messages.map .sent)
    (ha : Accounts (o.withheld ++ hand) pos messages (o'.withheld ++ hand') pos') :
    o'.Inv IsLine pos' hand' := by
  have hse := sent_of_trace ht
  have hrc := received_of_trace ht
  refine ⟨hrc ▸ h.isLine, ?_, fun p hp => ?_, fun p hp => ?_, fun p hp hle => ?_, ?_, ?_⟩
  · rw [hse, spans_append]
    exact h.tiles.append ha.tiles
  · rw [hse, relayedLines_append] at hp
    rw [hrc]
    rcases mem_append.mp hp with hp | hp
    · exact h.relayed p hp
    · exact h.held p (ha.relayed p hp)
  · rw [hrc]
    exact h.held p (ha.sub p hp)
  · rw [hrc] at hp
    obtain ⟨q, hq, heq⟩ := mem_map.mp (h.seen p hp (ha.tiles.le.trans hle))
    rcases ha.kept q hq (heq ▸ ha.tiles.le.trans hle) with hr | ⟨_, hr⟩
    · obtain ⟨s, hs, hseq⟩ := mem_map.mp hr
      have := Tiles.lt_of_relayed ha.tiles hs
      omega
    · exact heq ▸ hr
  · rw [ht]
    refine pairwise_append.mpr ⟨h.unmarked, ?_, ?_⟩
    · exact pairwise_map.mpr (pairwise_iff_getElem.mpr fun _ _ _ _ _ => trivial)
    · rintro (⟨w, ls⟩ | m) hme e he
      · obtain ⟨m, hm, rfl⟩ := mem_map.mp he
        cases m with
        | gap a b =>
          intro p hp
          rcases lt_or_ge p.1 a with hlt | hge
          · exact .inl hlt
          -- a received line that is not below the account is in hand
          · have hpo := (Tiles.le_of_gap ha.tiles hm).trans hge
            have hrc : p ∈ o.received := mem_flatMap.mpr ⟨_, hme, hp⟩
            obtain ⟨q, hq, heq⟩ := mem_map.mp (h.seen p hrc hpo)
            exact heq ▸ ha.avoids hm q hq
        | lines | truncation | degraded => trivial
      · trivial
  · intro w ls hme p hp hle
    rw [ht] at hme
    rw [hse, relayedLines_append, map_append, mem_append]
    have hme : .received w ls ∈ o.trace := by simpa using hme
    rcases h.kept hme p hp hle with hr | ⟨hpo, hq⟩
    · exact .inl (.inl hr)
    · obtain ⟨q, hq, heq⟩ := mem_map.mp hq
      rw [← heq] at hpo ⊢
      exact (ha.kept q hq hpo).imp_left .inr

end Inv

theorem Inv.congr (h : o.Inv IsLine pos hand) (ht : o'.trace = o.trace)
    (hw : o'.withheld = o.withheld) : o'.Inv IsLine pos hand := by
  refine h.sends (by rw [ht, map_nil, append_nil]) ?_
  rw [hw]
  exact Accounts.refl _ _

theorem Inv.relays (h : o.Inv IsLine o.floor hand) (hr : Relays o hand o' hand') :
    o'.Inv IsLine o'.floor hand' := by
  obtain ⟨messages, ht, ha⟩ := hr.out
  exact h.sends ht ha

@[simp] theorem pendingGap_onDrop : o.onDrop.pendingGap = none := by
  unfold onDrop
  split
  · rfl
  · rename_i h
    exact h

theorem Ok.relays_receive (h : o.Ok) (hf : c.firstLineNumber + c.lines.length ≤ u64Max)
    (hloop : relayLoop c noBudget 2 (o.receive c) = some (o', gapEnds)) :
    Relays (o.receive c) c.numbered o' [] := by
  have ho : (o.receive c).Ok := ⟨h.fits, h.accepted, h.pending⟩
  obtain ⟨o'', _, heq, hr⟩ := relays_relayLoop noBudget ho hf
  obtain rfl : o'' = o' := by
    rw [heq] at hloop
    exact (Prod.mk.inj (Option.some.inj hloop)).1
  exact hr

structure Good (IsLine : Nat × Line → Prop) (o : RelayAccount) : Prop where
  ok : o.Ok
  inv : o.Inv IsLine o.floor []

namespace Good

theorem start : ({} : RelayAccount).Good IsLine :=
  ⟨⟨Nat.zero_le _, by simp, by simp⟩, Inv.start⟩

section

variable (h : o.Good IsLine)
include h

theorem relays (hr : Relays o [] o' []) : o'.Good IsLine :=
  ⟨hr.ok, h.inv.relays hr⟩

theorem flushPendingGap : o.flushPendingGap.Good IsLine :=
  h.relays (relays_flushPendingGap h.ok (by simp))

theorem notice {m : RelayMessage} (hs : m.span = none) : (o.send [m]).Good IsLine :=
  h.relays ⟨⟨[m], rfl, Accounts.notice _ _ hs⟩, h.ok.fits, h.ok.accepted, h.ok.pending⟩

theorem chunk (hf : c.firstLineNumber + c.lines.length ≤ u64Max) (hc : ∀ p ∈ c.numbered, IsLine p)
    (hloop : relayLoop c noBudget 2 (o.receive c) = some (o', gapEnds)) : o'.Good IsLine := by
  have hr := h.ok.relays_receive hf hloop
  exact ⟨hr.ok, (h.inv.receive hc).relays hr⟩

theorem onDrop : ∃ pos, o.onDrop.Inv IsLine pos [] := by
  cases hp : o.pendingGap with
  | none =>
    rw [RelayAccount.onDrop, hp]
    exact ⟨_, h.inv⟩
  | some p =>
    refine ⟨_, h.flushPendingGap.inv.congr ?_ ?_⟩
    · rw [flushPendingGap_eq h.ok hp, RelayAccount.onDrop, hp]
      simp [send, ArmedGap.onDrop, PendingGap.arm, (h.ok.pending p hp).nonempty]
    · rw [withheld_of_none pendingGap_flushPendingGap, withheld_of_none pendingGap_onDrop]

end

end Good

end RelayAccount

def RelayEvent.Fits (execId : String) : RelayEvent → Prop
  | .chunk c _ _ => Relay.isOwn execId c → c.firstLineNumber + c.lines.length ≤ u64Max
  | _ => True

def RelayEvent.Carries (execId : String) (IsLine : Nat × Line → Prop) : RelayEvent → Prop
  | .chunk c _ _ => Relay.isOwn execId c → ∀ p ∈ c.numbered, IsLine p
  | _ => True

instance (execId : String) (e : RelayEvent) : Decidable (e.Fits execId) := by
  cases e <;> unfold RelayEvent.Fits <;> infer_instance

instance (execId : String) (IsLine : Nat × Line → Prop) [DecidablePred IsLine] (e : RelayEvent) :
    Decidable (e.Carries execId IsLine) := by
  cases e <;> unfold RelayEvent.Carries <;> infer_instance

namespace Relay

variable {r : Relay} {e : RelayEvent}

def Ends (o : RelayAccount) (servedComplete : Bool) (r : Relay) : Prop :=
  r.phase = .backoff ∧ r.account = o ∨ ∃ cause, r.phase = .exited cause ∧
      r.account = o.flushPendingGap.send
        (if servedComplete then [] else [.truncation o.flushPendingGap.floor]) ∧
      (r.graceExpired ∨ cause = .orphaned ∨ cause = .permanentErr ∨ servedComplete)

theorem ends_next : Ends r.account r.servedComplete (r.next cause) := by
  have he (h : r.graceExpired ∨ cause = .orphaned ∨ cause = .permanentErr ∨ r.servedComplete) :
      Ends r.account r.servedComplete (r.finishExit cause !r.servedComplete) := by
    refine .inr ⟨cause, rfl, ?_, h⟩
    cases hc : r.servedComplete with
    | true | false => simp [finishExit]
  unfold next tailNext
  by_cases hg : r.graceExpired
  · simp only [hg, Bool.and_true]
    exact he (.inl hg)
  · simp only [hg, Bool.and_true]
    cases cause with
    | orphaned => exact he (.inr (.inl rfl))
    | permanentErr => exact he (.inr (.inr (.inl rfl)))
    | naturalEnd =>
      by_cases hd : r.terminal && r.servedComplete
      · simp only [hd]
        exact he (.inr (.inr (.inr (Bool.and_eq_true_iff.mp hd).2)))
      · simp only [hd]
        exact .inl ⟨rfl, rfl⟩
    | transportErr | openFailed | gapObserved => exact .inl ⟨rfl, rfl⟩

structure Concludes (o : RelayAccount) (servedComplete : Bool) (r : Relay) : Prop where
  complete : r.servedComplete = servedComplete
  out : ∃ o', (o' = o ∨ ∃ start elapsed lane, o' = o.send [.degraded start elapsed lane]) ∧
    Ends o' servedComplete r

theorem servedComplete_next : (r.next cause).servedComplete = r.servedComplete := by
  unfold next
  split <;> rfl

theorem concludes_conclude (r : Relay) (cause : TailStopCause) (clock : RelayClock) :
    Concludes r.account r.servedComplete (r.conclude cause clock) := by
  have hcomplete : (r.sendNotice clock).servedComplete = r.servedComplete := by
    unfold sendNotice
    split
    · split <;> rfl
    · rfl
  refine ⟨(servedComplete_next ..).trans hcomplete, (r.sendNotice clock).account, ?_,
    hcomplete ▸ ends_next⟩
  unfold sendNotice
  split
  · split
    · exact .inr ⟨_, _, _, rfl⟩
    · exact .inl rfl
  · exact .inl rfl

theorem concludes_openFails : Concludes r.account r.servedComplete (r.openFails lane clock) :=
  concludes_conclude { r with degraded := true, degradedLane := lane } .openFailed clock

theorem concludes_driveEnds (r : Relay) (entry : Option Nat) (cause : TailStopCause)
    (clock : RelayClock) :
    Concludes r.account r.servedComplete (r.driveEnds entry cause clock) := by
  have hn : (r.noteDrive entry cause).account = r.account ∧
      (r.noteDrive entry cause).servedComplete = r.servedComplete := by
    unfold noteDrive
    split
    · exact ⟨rfl, rfl⟩
    · split <;> exact ⟨rfl, rfl⟩
  exact hn.1 ▸ hn.2 ▸ concludes_conclude (r.noteDrive entry cause) cause clock

theorem ended_eq_false (he : ∀ cause, r.phase = .exited cause → False)
    (hd : r.phase = .dropped → False) : r.ended = false := by
  unfold ended
  split
  · rename_i h
    exact (he _ h).elim
  · rename_i h
    exact (hd h).elim
  all_goals rfl

inductive Steps (pinnedExec : String) (r : Relay) : RelayEvent → Relay → Prop
  | quiet {e : RelayEvent} {r' : Relay} (haccount : r'.account = r.account)
      (hcomplete : r'.servedComplete = r.servedComplete)
      (hphase : r'.phase = r.phase ∧ (r.ended → r' = r) ∨
        r.ended = false ∧ (r'.phase = .top ∨ r'.phase = .opening ∨
          r'.phase = .driving r.account.lastRelayed [])) : Steps pinnedExec r e r'
  | concludes {e : RelayEvent} {r' : Relay} (hrunning : r.ended = false)
      (h : Concludes r.account r.servedComplete r') : Steps pinnedExec r e r'
  | chunk {entry : Option Nat} {seen : List (Nat × Line)} {c : TailLogChunk}
      {noBudget near gapEnds : Bool} {clock : RelayClock} {o : RelayAccount} {r' : Relay}
      (hphase : r.phase = .driving entry seen) (hown : isOwn pinnedExec c)
      (hloop : RelayAccount.relayLoop c near 2 (r.account.receive c) = some (o, gapEnds))
      (h : r'.account = o ∧ r'.servedComplete = c.isComplete ∧
          r'.phase = .driving entry (seen ++ c.numbered) ∨
        Concludes o c.isComplete r') : Steps pinnedExec r (.chunk c noBudget clock) r'
  | dropped {r' : Relay} (hrunning : r.ended = false) (haccount : r'.account = r.account.onDrop)
      (hphase : r'.phase = .dropped) : Steps pinnedExec r .dropped r'

theorem steps_onChunk (hphase : r.phase = .driving entry seen) (hown : isOwn pinnedExec c) :
    Steps pinnedExec r (.chunk c noBudget clock) (r.onChunk entry seen c noBudget clock) := by
  unfold onChunk
  cases hloop : RelayAccount.relayLoop c (r.graceArmed && noBudget) 2 (r.account.receive c) with
  | none => exact .quiet rfl rfl (.inl ⟨rfl, fun _ => rfl⟩)
  | some result =>
    obtain ⟨o, gapEnds⟩ := result
    cases gapEnds with
    | false => exact .chunk hphase hown hloop (.inl ⟨rfl, rfl, rfl⟩)
    | true =>
      have he := concludes_driveEnds
        { r with
          account := o
          servedComplete := c.isComplete
          phase := .driving entry (seen ++ c.numbered) } entry .gapObserved clock
      exact .chunk hphase hown hloop (.inr he)

theorem steps_step (pinnedExec : String) (r : Relay) (e : RelayEvent) :
    Steps pinnedExec r e (r.step pinnedExec e) := by
  have hq {r' : Relay} ha hc hp (he : r.ended = false) : Steps pinnedExec r e r' :=
    .quiet ha hc (.inl ⟨hp, by simp [he]⟩)
  unfold step
  split
  case h_1 | h_2 => exact .quiet rfl rfl (.inl ⟨rfl, fun _ => rfl⟩)
  case h_3 hex hd => exact hq rfl rfl rfl (ended_eq_false hex hd)
  case h_4 hex hd => exact hq rfl rfl rfl (ended_eq_false hex hd)
  case h_5 hex hd => exact .dropped (ended_eq_false hex hd) rfl rfl
  case h_6 hphase =>
    have hrunning : r.ended = false := by simp [ended, hphase]
    split
    · exact .concludes hrunning ⟨servedComplete_next .., _, .inl rfl, ends_next⟩
    · exact .quiet rfl rfl (.inr ⟨hrunning, .inr (.inl rfl)⟩)
  case h_7 hphase =>
    exact .quiet rfl rfl (.inr ⟨by simp [ended, hphase], .inr (.inr rfl)⟩)
  case h_8 hphase | h_9 hphase =>
    exact .concludes (by simp [ended, hphase]) concludes_openFails
  case h_10 hphase =>
    exact .concludes (by simp [ended, hphase]) (concludes_conclude _ _ _)
  case h_11 hphase =>
    split_ifs with hown
    · exact steps_onChunk hphase hown
    · exact .quiet rfl rfl (.inl ⟨rfl, fun _ => rfl⟩)
  case h_12 hphase | h_13 hphase =>
    exact .concludes (by simp [ended, hphase]) (concludes_driveEnds _ _ _ _)
  case h_14 hphase =>
    have hrunning : r.ended = false := by simp [ended, hphase]
    split
    · exact hq rfl rfl rfl hrunning
    · split
      · split
        · exact .concludes hrunning (concludes_driveEnds _ _ _ _)
        · exact hq rfl rfl rfl hrunning
      · exact hq rfl rfl rfl hrunning
  case h_15 hphase =>
    have hrunning : r.ended = false := by simp [ended, hphase]
    split
    · exact .concludes hrunning (concludes_driveEnds _ _ _ _)
    · exact hq rfl rfl rfl hrunning
  case h_16 hphase => exact .quiet rfl rfl (.inr ⟨by simp [ended, hphase], .inl rfl⟩)
  case h_17 => exact .quiet rfl rfl (.inl ⟨rfl, fun _ => rfl⟩)

structure Inv (IsLine : Nat × Line → Prop) (r : Relay) : Prop where
  account : ∃ pos, r.account.Inv IsLine pos []
  running : r.phase ≠ .dropped → r.account.Good IsLine
  settled : r.ended → r.account.pendingGap = none

variable {servedComplete : Bool}

theorem Inv.of_good (h : r.account.Good IsLine) (hs : r.ended → r.account.pendingGap = none) :
    r.Inv IsLine := ⟨⟨_, h.inv⟩, fun _ => h, hs⟩

theorem Concludes.inv (h : Concludes o servedComplete r) (ho : o.Good IsLine) : r.Inv IsLine := by
  obtain ⟨o', hn, he⟩ := h.out
  have ho' : o'.Good IsLine := by
    rcases hn with rfl | ⟨start, elapsed, lane, rfl⟩
    · exact ho
    · exact ho.notice rfl
  rcases he with ⟨hphase, haccount⟩ | ⟨cause, hphase, haccount, _⟩
  · exact .of_good (haccount ▸ ho') (by simp [ended, hphase])
  · refine .of_good ?_ fun _ => ?_
    · rw [haccount]
      cases servedComplete with
      | true => simpa using ho'.flushPendingGap
      | false => exact ho'.flushPendingGap.notice rfl
    · rw [haccount]
      exact RelayAccount.pendingGap_flushPendingGap

theorem Inv.step (h : r.Inv IsLine) (hf : e.Fits execId) (hc : e.Carries execId IsLine) :
    (r.step execId e).Inv IsLine := by
  generalize hr' : r.step execId e = r'
  have hs := steps_step execId r e
  rw [hr'] at hs
  have hg (hrunning : r.ended = false) : r.account.Good IsLine :=
    h.running fun hd => by simp [ended, hd] at hrunning
  cases hs with
  | quiet haccount hcomplete hphase =>
    rcases hphase with ⟨hphase, hsa⟩ | ⟨hrunning, hphase⟩
    · by_cases he : r.ended
      · exact hsa he ▸ h
      · have hrunning : r.ended = false := Bool.eq_false_iff.mpr he
        refine .of_good (haccount ▸ hg hrunning) fun he' => ?_
        rw [ended, hphase] at he'
        exact absurd he' he
    · refine .of_good (haccount ▸ hg hrunning) ?_
      rcases hphase with hphase | hphase | hphase <;> simp [ended, hphase]
  | concludes hrunning hend => exact hend.inv (hg hrunning)
  | chunk hphase hown hloop hre =>
    have hg := (hg (by simp [ended, hphase])).chunk (hf hown) (hc hown) hloop
    rcases hre with ⟨haccount, _, hphase'⟩ | hend
    · exact .of_good (haccount ▸ hg) (by simp [ended, hphase'])
    · exact hend.inv hg
  | dropped hrunning haccount hphase =>
    refine ⟨haccount ▸ (hg hrunning).onDrop, fun hne => absurd hphase hne, fun _ => ?_⟩
    rw [haccount]
    exact RelayAccount.pendingGap_onDrop

theorem Inv.foldl {events : List RelayEvent} (h : r.Inv IsLine)
    (hf : ∀ e ∈ events, e.Fits execId) (hc : ∀ e ∈ events, e.Carries execId IsLine) :
    (events.foldl (Relay.step execId) r).Inv IsLine := by
  induction events generalizing r with
  | nil => exact h
  | cons e events ih =>
    obtain ⟨hfit, hf⟩ := forall_mem_cons.mp hf
    obtain ⟨hca, hc⟩ := forall_mem_cons.mp hc
    exact ih (h.step hfit hca) hf hc

theorem Inv.start : Inv IsLine {} := .of_good .start (by simp)

/-- When the task ends, its messages divide `[0, N)` in order into runs of relayed lines and
marked gaps.  No marker covers a line received before it, and every line received at or above
the watermark of its moment has been relayed. -/
theorem relay_accounts_exactly_once (execId : String) (content : Nat → Line)
    (events : List RelayEvent) (hfits : ∀ e ∈ events, e.Fits execId)
    (hc : ∀ e ∈ events, e.Carries execId fun p => p.2 = content p.1)
    (hended : (run execId events).ended) :
    (∃ N, Tiles 0 (spans (run execId events).account.sent) N) ∧
      (∀ p ∈ relayedLines (run execId events).account.sent, p.2 = content p.1) ∧
      (run execId events).account.trace.Pairwise RelayAccount.Unmarked ∧
      ∀ watermark lines, .received watermark lines ∈ (run execId events).account.trace →
        ∀ p ∈ lines, watermark ≤ p.1 → p ∈ relayedLines (run execId events).account.sent := by
  have hi := Inv.start.foldl hfits hc
  obtain ⟨N, ha⟩ := hi.account
  have hb : ∀ p ∈ relayedLines (Relay.run execId events).account.sent, p.2 = content p.1 :=
    fun p hp => ha.isLine p (ha.relayed p hp)
  refine ⟨⟨N, ha.tiles⟩, hb, ha.unmarked, fun w lines hm p hp hle => ?_⟩
  have hn := RelayAccount.withheld_of_none (hi.settled hended)
  rcases ha.kept hm p hp hle with hr | ⟨_, hh⟩
  · obtain ⟨q, hq, heq⟩ := mem_map.mp hr
    have hpq : q = p := by
      refine Prod.ext heq ?_
      rw [hb q hq, ha.isLine p (mem_flatMap.mpr ⟨_, hm, hp⟩), heq]
    exact hpq ▸ hq
  · simp [hn] at hh

/-- A hole at line 2 is withheld, half healed by the next stream and disclosed at line 3 when
that stream jumps to the same place; the store then refuses. -/
def healedHole : List RelayEvent :=
  [.loopTop ⟨false, none⟩, .opened, .chunk ⟨"exec", [[0], [1]], 0, false⟩ false ⟨false, none⟩,
    .chunk ⟨"other", [[9]], 2, true⟩ false ⟨false, none⟩,
    .chunk ⟨"exec", [[4], [5]], 4, false⟩ false ⟨false, none⟩,
    .backoffEnds, .loopTop ⟨false, none⟩, .opened,
    .chunk ⟨"exec", [[2]], 2, false⟩ false ⟨false, none⟩,
    .chunk ⟨"exec", [[4]], 4, false⟩ false ⟨false, none⟩,
    .terminal, .streamFails true ⟨false, none⟩]

theorem relay_accounts_healedHole : (run "exec" healedHole).account.sent =
        [.lines 0 [[0], [1]], .lines 2 [[2]], .gap 3 4, .lines 4 [[4], [5]], .truncation 6] ∧
      ∃ N, Tiles 0 (spans (run "exec" healedHole).account.sent) N :=
  ⟨by decide +kernel, (relay_accounts_exactly_once "exec" (fun n => [UInt8.ofNat n]) healedHole
    (by decide +kernel) (by decide +kernel) (by decide +kernel)).1⟩

end Relay

end RioBuild.Log
