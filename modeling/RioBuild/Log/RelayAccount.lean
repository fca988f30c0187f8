import RioBuild.Log.Relay

namespace RioBuild.Log

open Lib Lib.Word List

def spans (messages : List RelayMessage) : List (Nat × Nat) :=
  messages.filterMap RelayMessage.span

def relayedLines (messages : List RelayMessage) : List (Nat × Line) :=
  messages.flatMap RelayMessage.relayed

@[simp] theorem spans_append : spans (l ++ m) = spans l ++ spans m := filterMap_append

@[simp] theorem relayedLines_append :
    relayedLines (l ++ m) = relayedLines l ++ relayedLines m := flatMap_append

theorem Tiles.lt_of_relayed (h : Tiles a (spans messages) b) (hp : p ∈ relayedLines messages) :
    p.1 < b := by
  obtain ⟨m, hm, hp⟩ := mem_flatMap.mp hp
  cases m with
  | lines first ls =>
    have hs : (first, first + ls.length) ∈ spans messages :=
      mem_filterMap.mpr ⟨_, hm, rfl⟩
    exact (bounds_of_mem_numberFrom hp).2.trans_le (h.bounds_of_mem hs).2
  | gap | truncation | degraded => simp [RelayMessage.relayed] at hp

theorem Tiles.le_of_gap (h : Tiles a (spans messages) b) (hm : .gap gapFrom gapUntil ∈ messages) :
    a ≤ gapFrom :=
  (h.bounds_of_mem (mem_filterMap.mpr ⟨_, hm, rfl⟩)).1

/-- From the lines in hand the messages account for `[pos, pos')`: they relay lines in hand,
mark none of them missing, and leave every later one in hand. -/
structure Accounts (held : List (Nat × Line)) (pos : Nat) (messages : List RelayMessage)
    (held' : List (Nat × Line)) (pos' : Nat) : Prop where
  tiles : Tiles pos (spans messages) pos'
  relayed : ∀ p ∈ relayedLines messages, p ∈ held
  avoids : ∀ {a b}, .gap a b ∈ messages → ∀ p ∈ held, p.1 < a ∨ b ≤ p.1
  sub : ∀ p ∈ held', p ∈ held
  kept : ∀ p ∈ held, pos ≤ p.1 → p.1 ∈ (relayedLines messages).map Prod.fst ∨
    pos' ≤ p.1 ∧ p.1 ∈ held'.map Prod.fst

namespace Accounts

variable {held held' : List (Nat × Line)}
theorem nil (hs : ∀ p ∈ held', p ∈ held) (hk : ∀ p ∈ held, pos ≤ p.1 → p.1 ∈ held'.map Prod.fst) :
    Accounts held pos [] held' pos where
  tiles := rfl
  relayed := by simp [relayedLines]
  avoids := by simp
  sub := hs
  kept p hp hpo := .inr ⟨hpo, hk p hp hpo⟩

theorem refl (held : List (Nat × Line)) (pos : Nat) : Accounts held pos [] held pos :=
  nil (fun _ hp => hp) fun _ hp _ => mem_map_of_mem hp

theorem trans (h : Accounts held pos messages held' pos')
    (h' : Accounts held' pos' messages' held'' pos'') :
    Accounts held pos (messages ++ messages') held'' pos'' where
  tiles := by
    rw [spans_append]
    exact h.tiles.append h'.tiles
  relayed p hp := by
    rw [relayedLines_append] at hp
    rcases mem_append.mp hp with hp | hp
    · exact h.relayed p hp
    · exact h.sub p (h'.relayed p hp)
  avoids {a b} hm p hp := by
    rcases mem_append.mp hm with hm | hm
    · exact h.avoids hm p hp
    -- a line below the second part's start is below its markers
    · rcases lt_or_ge p.1 a with hlt | hge
      · exact .inl hlt
      · have hle := Tiles.le_of_gap h'.tiles hm
        have hpo := h.tiles.le
        rcases h.kept p hp (by omega) with hr | ⟨_, hq⟩
        · obtain ⟨q, hq, heq⟩ := mem_map.mp hr
          have := Tiles.lt_of_relayed h.tiles hq
          omega
        · obtain ⟨q, hq, heq⟩ := mem_map.mp hq
          exact heq ▸ h'.avoids hm q hq
  sub p hp := h.sub p (h'.sub p hp)
  kept p hp hpo := by
    rw [relayedLines_append, map_append, mem_append]
    rcases h.kept p hp hpo with hr | ⟨hpo', hq⟩
    · exact .inl (.inl hr)
    · obtain ⟨q, hq, heq⟩ := mem_map.mp hq
      rw [← heq] at hpo' ⊢
      exact (h'.kept q hq hpo').imp_left .inr

theorem gap (hlt : pos < stop) (h : ∀ p ∈ held, p.1 < pos ∨ stop ≤ p.1) :
    Accounts held pos [.gap pos stop] held stop where
  tiles := ⟨rfl, hlt, rfl⟩
  relayed := by simp [relayedLines, RelayMessage.relayed]
  avoids := by
    intro a b hm
    obtain ⟨rfl, rfl⟩ : a = pos ∧ b = stop := by simpa using hm
    exact h
  sub _ hp := hp
  kept p hp hpo := by
    rcases h p hp with hlt | hle
    · omega
    · exact .inr ⟨hle, mem_map_of_mem hp⟩

theorem lines (hne : ls ≠ []) (hl : ∀ p ∈ numberFrom pos ls, p ∈ held) (hs : ∀ p ∈ held', p ∈ held)
    (hk : ∀ p ∈ held, pos + ls.length ≤ p.1 → p.1 ∈ held'.map Prod.fst) :
    Accounts held pos [.lines pos ls] held' (pos + ls.length) where
  tiles := ⟨rfl, Nat.lt_add_of_pos_right (length_pos_iff.mpr hne), rfl⟩
  relayed := by simpa [relayedLines, RelayMessage.relayed] using hl
  avoids := by simp
  sub := hs
  kept p hp hpo := by
    rcases lt_or_ge p.1 (pos + ls.length) with hlt | hge
    · left
      simp only [relayedLines, RelayMessage.relayed, flatMap_cons, flatMap_nil,
        append_nil, map_fst_numberFrom]
      exact mem_range'_1.mpr ⟨hpo, hlt⟩
    · exact .inr ⟨hge, hk p hp hge⟩

theorem notice (held : List (Nat × Line)) (pos : Nat) {m : RelayMessage} (hs : m.span = none) :
    Accounts held pos [m] held pos where
  tiles := by simp [spans, hs, Tiles]
  relayed := by
    cases m with
    | lines | gap => simp [RelayMessage.span] at hs
    | truncation | degraded => simp [relayedLines, RelayMessage.relayed]
  avoids := by
    intro a b hm
    obtain rfl : .gap a b = m := by simpa using hm
    simp [RelayMessage.span] at hs
  sub _ hp := hp
  kept p hp hpo := .inr ⟨hpo, mem_map_of_mem hp⟩

theorem rest (held : List (Nat × Line)) (pos : Nat) (ls : List Line)
    (hl : ∀ p, p ∈ held ↔ p ∈ numberFrom pos ls) :
    Accounts held pos (if ls = [] then [] else [.lines pos ls]) [] (pos + ls.length) := by
  split_ifs with hn
  · subst hn
    exact nil (by simp) fun p hp => by simp [hl] at hp
  · refine lines hn (fun p hp => (hl p).mpr hp) (by simp) fun p hp hle => ?_
    have := (bounds_of_mem_numberFrom ((hl p).mp hp)).2
    omega

end Accounts

structure PendingGap.Ok (p : PendingGap) (floor : Nat) : Prop where
  gapFrom : p.gapFrom = floor
  lt : floor < p.gapUntil
  withheldFrom : p.withheldFrom = p.gapUntil
  nonempty : p.withheld ≠ []
  nextLine : p.nextLine = p.gapUntil + p.withheld.length
  fits : p.nextLine ≤ u64Max

namespace RelayAccount

variable {o o' : RelayAccount} {p : PendingGap} {next : Nat}

structure Ok (o : RelayAccount) : Prop where
  fits : o.floor ≤ u64Max
  accepted : ∀ f ∈ o.acceptedGapFloor, f ≤ o.floor
  pending : ∀ p ∈ o.pendingGap, p.Ok o.floor

def withheld (o : RelayAccount) : List (Nat × Line) :=
  match o.pendingGap with
  | some p => numberFrom p.withheldFrom p.withheld
  | none => []

theorem withheld_of_none (h : o.pendingGap = none) : o.withheld = [] := by
  rw [withheld, h]

theorem withheld_of_some (h : o.pendingGap = some p) :
    o.withheld = numberFrom p.withheldFrom p.withheld := by
  rw [withheld, h]

theorem floor_of_lastRelayed (h : o.lastRelayed = some (next - 1)) (hpo : 0 < next)
    (hfits : next ≤ u64Max) : o.floor = next := by
  rw [floor, h]
  change saturatingAdd (next - 1) 1 = next
  rw [saturatingAdd_eq (by omega)]
  omega

@[simp] theorem send_nil : o.send [] = o := by simp [send]

@[simp] theorem lastRelayed_relay (first next : Nat) :
    (o.relay first ls next).lastRelayed = some (next - 1) := rfl

@[simp] theorem pendingGap_relay (first next : Nat) :
    (o.relay first ls next).pendingGap = o.pendingGap := rfl

@[simp] theorem trace_relay (first next : Nat) (ls : List Line) :
    (o.relay first ls next).trace = o.trace ++ [.sent (.lines first ls)] := rfl

structure Relays (o : RelayAccount) (hand : List (Nat × Line)) (o' : RelayAccount)
    (hand' : List (Nat × Line)) : Prop where
  out : ∃ messages, o'.trace = o.trace ++ messages.map .sent ∧
    Accounts (o.withheld ++ hand) o.floor messages (o'.withheld ++ hand') o'.floor
  ok : o'.Ok

theorem Relays.trans (h : Relays o hand o' hand') (h' : Relays o' hand' o'' hand'') :
    Relays o hand o'' hand'' := by
  obtain ⟨messages, ht, ha⟩ := h.out
  obtain ⟨messages', ht', ha'⟩ := h'.out
  refine ⟨⟨messages ++ messages', ?_, ha.trans ha'⟩, h'.ok⟩
  rw [ht', ht, map_append, append_assoc]

theorem disclose_eq (suppressed : ArmedGap)
    (hac : ∀ f ∈ o.acceptedGapFloor, f ≤ start) (hh : a.hole = some (start, ho))
    (hlt : start < stop) (hle : stop ≤ ho) : o.disclose a start stop suppressed =
      ({ o.send [.gap start stop] with acceptedGapFloor := some stop },
        { a with hole := if stop < ho then some (stop, ho) else none }) := by
  have ha : (o.acceptedGapFloor.all fun f => f ≤ start) = true := by
    simpa [Option.all_eq_true] using hac
  rw [disclose, if_pos ha, ArmedGap.discloseHoleUntil, hh]
  simp [min_eq_left hle, if_neg (not_le.mpr hlt)]

theorem flushPendingGap_of_none (h : o.pendingGap = none) : o.flushPendingGap = o := by
  rw [flushPendingGap, h]

@[simp] theorem pendingGap_flushPendingGap : o.flushPendingGap.pendingGap = none := by
  unfold flushPendingGap
  split
  · rename_i h
    exact h
  · simp only [discloseHole, PendingGap.arm, disclose, sendLines]
    split <;> split <;> rfl

theorem sendLines_eq {a : ArmedGap} (hh : a.hole = none) : o.sendLines a =
    if a.lines = [] then o else o.relay a.linesFrom a.lines a.nextLine := by
  unfold sendLines
  split
  · rename_i h
    simp [ArmedGap.onDrop, hh, h]
  · simp [ArmedGap.onDrop, hh]

theorem sendLines_arm (hne : p.withheld ≠ []) :
    o.sendLines { p.arm with hole := none } = o.relay p.withheldFrom p.withheld p.nextLine :=
  (sendLines_eq rfl).trans (if_neg hne)

theorem flushPendingGap_eq (hok : o.Ok) (hp : o.pendingGap = some p) : o.flushPendingGap =
    { o with
      lastRelayed := some (p.nextLine - 1)
      pendingGap := none
      acceptedGapFloor := some p.gapUntil
      trace := o.trace ++
        [.sent (.gap p.gapFrom p.gapUntil), .sent (.lines p.withheldFrom p.withheld)] } := by
  have hpo := hok.pending p hp
  have hlt : p.gapFrom < p.gapUntil := hpo.gapFrom ▸ hpo.lt
  have hd := disclose_eq (o := { o with pendingGap := none }) p.arm.suppressHole
    (a := p.arm) (fun f hf => hpo.gapFrom ▸ hok.accepted f hf) rfl hlt le_rfl
  rw [flushPendingGap, hp]
  change sendLines (disclose _ p.arm p.gapFrom p.gapUntil p.arm.suppressHole).1
    (disclose _ p.arm p.gapFrom p.gapUntil p.arm.suppressHole).2 = _
  rw [hd, if_neg (lt_irrefl _)]
  rw [sendLines_arm hpo.nonempty]
  simp [relay, send]

theorem Relays.of_last (messages : List RelayMessage) (held : List (Nat × Line)) (hpo : 0 < next)
    (hfits : next ≤ u64Max) (ht : o'.trace = o.trace ++ messages.map .sent)
    (hl : o'.lastRelayed = some (next - 1)) (hac : ∀ f ∈ o'.acceptedGapFloor, f ≤ next)
    (hpe : ∀ p ∈ o'.pendingGap, p.Ok next) (hh : o'.withheld = held)
    (ha : Accounts (o.withheld ++ hand) o.floor messages (held ++ hand') next) :
    Relays o hand o' hand' := by
  have hf := floor_of_lastRelayed hl hpo hfits
  exact ⟨⟨messages, ht, hf ▸ hh ▸ ha⟩, ⟨hf ▸ hfits, hf ▸ hac, hf ▸ hpe⟩⟩

theorem relays_flushPendingGap (hok : o.Ok)
    (hh : ∀ p ∈ o.pendingGap, ∀ q ∈ hand, q.1 < o.floor ∨ p.gapUntil ≤ q.1) :
    Relays o hand o.flushPendingGap hand := by
  cases hp : o.pendingGap with
  | none =>
    rw [flushPendingGap_of_none hp]
    exact ⟨⟨[], by simp, Accounts.refl _ _⟩, hok⟩
  | some p =>
    have hpo := hok.pending p hp
    have hl := length_pos_iff.mpr hpo.nonempty
    have hn := hpo.nextLine
    have heq := flushPendingGap_eq hok hp
    refine Relays.of_last [.gap p.gapFrom p.gapUntil, .lines p.withheldFrom p.withheld] []
      (by omega) hpo.fits (by rw [heq]; rfl) (by rw [heq]) (fun f hf => ?_) (by simp)
      (withheld_of_none pendingGap_flushPendingGap) ?_
    · obtain rfl : p.gapUntil = f := by simpa [heq] using hf
      omega
    · rw [hn, withheld_of_some hp, hpo.gapFrom, hpo.withheldFrom]
      refine (Accounts.gap hpo.lt fun q hq => ?_).trans (Accounts.lines hpo.nonempty
        (fun q hq => mem_append_left _ hq) (fun q hq => mem_append_right _ hq) ?_)
      · rcases mem_append.mp hq with hq | hq
        · exact .inr (bounds_of_mem_numberFrom hq).1
        · exact hh p hp q hq
      · intro q hq hle
        rcases mem_append.mp hq with hq | hq
        · have := (bounds_of_mem_numberFrom hq).2
          omega
        · exact mem_map_of_mem hq

variable {c : TailLogChunk} {noBudget : Bool}

theorem slice_stop :
    c.slice w (c.firstLineNumber + c.lines.length) = c.lines.drop (w - c.firstLineNumber) := by
  rw [TailLogChunk.slice, take_of_length_le]
  rw [length_drop]
  omega

theorem lt_of_mem_numbered (hq : q ∈ c.numbered) :
    q.1 < c.firstLineNumber + c.lines.length := (bounds_of_mem_numberFrom hq).2

theorem noteDelivered_arm (hpo : p.Ok o.floor) (hle : p.gapUntil ≤ next) :
    ({ p.arm with hole := some (start, p.gapUntil) } : ArmedGap).noteDelivered next =
      { hole := none
        linesFrom := next
        lines := p.withheld.drop (next - p.gapUntil)
        nextLine := p.nextLine } := by
  rcases eq_or_lt_of_le hle with rfl | hlt
  · simp [ArmedGap.noteDelivered, PendingGap.arm, hpo.withheldFrom]
  · simp [ArmedGap.noteDelivered, PendingGap.arm, hpo.withheldFrom, hlt, hle]

theorem mem_drop_withheld (hp : o.pendingGap = some p) (hpo : p.Ok o.floor) (hle : p.gapUntil ≤ n) :
    q ∈ numberFrom n (p.withheld.drop (n - p.gapUntil)) ↔ q ∈ o.withheld ∧ n ≤ q.1 := by
  rw [withheld_of_some hp, hpo.withheldFrom]
  exact mem_numberFrom_drop hle

theorem relays_sendLines (hpo : p.Ok o.floor) (hle : p.gapUntil ≤ next) (hfits : next ≤ u64Max)
    (ha : a = ⟨none, next, p.withheld.drop (next - p.gapUntil), p.nextLine⟩)
    (ht : o'.trace = o.trace ++ messages.map .sent) (hla : o'.lastRelayed = some (next - 1))
    (hpe : o'.pendingGap = none) (hac : ∀ f ∈ o'.acceptedGapFloor, f ≤ next)
    (hacc : Accounts (o.withheld ++ hand) o.floor messages
      (numberFrom next (p.withheld.drop (next - p.gapUntil))) next) :
    Relays o hand (o'.sendLines a) [] := by
  have hpos : 0 < next := by
    have := hpo.lt
    omega
  have hr := hacc.trans (Accounts.rest _ _ _ fun q => Iff.rfl)
  rw [sendLines_eq (by rw [ha]), ha]
  dsimp only
  split_ifs with hn
  · rw [hn, if_pos rfl, append_nil, length_nil] at hr
    exact Relays.of_last messages [] hpos hfits ht hla hac (by simp [hpe]) (withheld_of_none hpe) hr
  · have hl := length_pos_iff.mpr hn
    have hnex := hpo.nextLine
    have hstop : next + (p.withheld.drop (next - p.gapUntil)).length = p.nextLine := by
      rw [length_drop] at hl ⊢
      omega
    rw [if_neg hn, hstop] at hr
    refine Relays.of_last _ [] (by omega) hpo.fits (by simp [ht]) (lastRelayed_relay ..)
      (fun f hf => ?_) (by simp [hpe]) (withheld_of_none hpe) hr
    have := hac f hf
    omega

def Passes (o : RelayAccount) (c : TailLogChunk) : ChunkPass → Prop
  | .done o' | .gapEnds o' => Relays o c.numbered o' []
  | .again o' => Relays o c.numbered o' c.numbered ∧ o'.pendingGap = none

section Serve

variable (hfirst : c.firstLineNumber ≤ o.floor)
  (hstop : o.floor < c.firstLineNumber + c.lines.length)

include hfirst hstop

theorem accounts_serve (held' : List (Nat × Line)) (hs : ∀ q ∈ held', q ∈ o.withheld)
    (hk : ∀ q ∈ o.withheld, c.firstLineNumber + c.lines.length ≤ q.1 → q.1 ∈ held'.map Prod.fst) :
    Accounts (o.withheld ++ c.numbered) o.floor
      [.lines o.floor (c.lines.drop (o.floor - c.firstLineNumber))] held'
      (c.firstLineNumber + c.lines.length) := by
  have hl : o.floor + (c.lines.drop (o.floor - c.firstLineNumber)).length =
      c.firstLineNumber + c.lines.length := by
    rw [length_drop]
    omega
  rw [← hl] at hk ⊢
  refine Accounts.lines (length_pos_iff.mp (by omega)) (fun q hq => ?_)
    (fun q hq => mem_append_left _ (hs q hq)) fun q hq hle => ?_
  · exact mem_append_right _ ((mem_numberFrom_drop hfirst).mp hq).1
  · rcases mem_append.mp hq with hq | hq
    · exact hk q hq hle
    · have := lt_of_mem_numbered hq
      omega

theorem pass_serve (hok : o.Ok) (hfits : c.firstLineNumber + c.lines.length ≤ u64Max)
    (hv : visitChunk o.floor c.firstLineNumber c.lines.length =
      .serve o.floor (c.firstLineNumber + c.lines.length)
        (c.firstLineNumber + c.lines.length)) :
    Passes o c (o.pass c noBudget) := by
  have hpos : 0 < c.firstLineNumber + c.lines.length := by omega
  have hac : ∀ f ∈ o.acceptedGapFloor, f ≤ c.firstLineNumber + c.lines.length :=
    fun f hf => (hok.accepted f hf).trans hstop.le
  have ha := accounts_serve hfirst hstop
  rw [pass, hv]
  dsimp only
  rw [slice_stop]
  cases hp : o.pendingGap with
  | none =>
    simp only [onServe, hp]
    exact Relays.of_last [.lines o.floor _] [] hpos hfits rfl (lastRelayed_relay ..) hac
      (by simp [hp]) (withheld_of_none hp) (ha [] (by simp) (by simp [withheld_of_none hp]))
  | some p =>
    have hpo := hok.pending p hp
    have hfr : ¬c.firstLineNumber + c.lines.length ≤ p.gapFrom := by
      rw [hpo.gapFrom]
      omega
    rcases lt_or_ge (c.firstLineNumber + c.lines.length) p.gapUntil with hlt | hge
    · simp only [onServe, hp, if_neg hfr, if_pos hlt, dischargeServedPrefix, pendingGap_relay]
      refine Relays.of_last [.lines o.floor _] o.withheld hpos hfits rfl rfl hac
        (fun q hq => ?_) (by rw [withheld_of_some hp]; rfl) ?_
      · obtain rfl : _ = q := Option.some.inj hq
        exact { hpo with gapFrom := max_eq_right (by omega), lt := hlt }
      · rw [append_nil]
        exact ha _ (fun q hq => hq) fun q hq _ => mem_map_of_mem hq
    · simp only [onServe, hp, if_neg hfr, if_neg (not_lt.mpr hge)]
      refine relays_sendLines hpo hge hfits (noteDelivered_arm hpo hge) rfl
        (lastRelayed_relay ..) rfl hac (ha _ (fun q hq => ?_) fun q hq hle => ?_)
      · exact ((mem_drop_withheld hp hpo hge).mp hq).1
      · exact mem_map_of_mem ((mem_drop_withheld hp hpo hge).mpr ⟨hq, hle⟩)

end Serve

section Gap

variable (hgap : o.floor < c.firstLineNumber) (hne : c.lines ≠ [])
  (hfits : c.firstLineNumber + c.lines.length ≤ u64Max)

def freshGap (o : RelayAccount) (c : TailLogChunk) : PendingGap where
  gapFrom := o.floor
  gapUntil := c.firstLineNumber
  withheldFrom := c.firstLineNumber
  withheld := c.lines
  nextLine := c.firstLineNumber + c.lines.length

include hgap hne hfits

theorem freshGap_ok : (freshGap o c).Ok o.floor := ⟨rfl, hgap, rfl, hne, rfl, hfits⟩

theorem relays_record (hok : o.Ok)
    (ho : ∀ p ∈ o.pendingGap, p.gapUntil = c.firstLineNumber ∧
      p.nextLine ≤ c.firstLineNumber + c.lines.length) :
    Relays o c.numbered { o with pendingGap := some (freshGap o c) } [] := by
  refine ⟨⟨[], by simp, Accounts.nil (fun q hq => ?_) fun q hq _ => ?_⟩,
    hok.fits, hok.accepted, fun p hp => ?_⟩
  · rw [append_nil] at hq
    exact mem_append_right _ hq
  · have hb : c.firstLineNumber ≤ q.1 ∧ q.1 < c.firstLineNumber + c.lines.length := by
      rcases mem_append.mp hq with hq | hq
      · cases hp : o.pendingGap with
        | none => simp [withheld, hp] at hq
        | some p =>
          have hpo := hok.pending p hp
          rw [withheld_of_some hp] at hq
          have := bounds_of_mem_numberFrom hq
          have := ho p hp
          rw [hpo.nextLine, hpo.withheldFrom] at *
          omega
      · exact bounds_of_mem_numberFrom hq
    rw [append_nil, withheld_of_some rfl, map_fst_numberFrom]
    exact mem_range'_1.mpr hb
  · obtain rfl : freshGap o c = p := Option.some.inj hp
    exact freshGap_ok hgap hne hfits

theorem relays_mergeSameSpan (hok : o.Ok) (hp : o.pendingGap = some p)
    (hu : p.gapUntil = c.firstLineNumber) :
    Relays o c.numbered (o.mergeSameSpan (freshGap o c)) [] := by
  have hpo := hok.pending p hp
  simp only [mergeSameSpan, hp]
  split_ifs with hlt
  · refine relays_record hgap hne hfits hok fun q hq => ?_
    obtain rfl : p = q := Option.some.inj (hp.symm.trans hq)
    exact ⟨hu, le_of_lt hlt⟩
  · have hlt : c.firstLineNumber + c.lines.length ≤ p.nextLine := Nat.le_of_not_lt hlt
    refine ⟨⟨[], by simp, Accounts.nil (fun q hq => ?_) fun q hq _ => ?_⟩, hok⟩
    · rw [append_nil] at hq
      exact mem_append_left _ hq
    · rw [append_nil]
      rcases mem_append.mp hq with hq | hq
      · exact mem_map_of_mem hq
      · have := bounds_of_mem_numberFrom hq
        have := hpo.nextLine
        rw [withheld_of_some hp, map_fst_numberFrom, hpo.withheldFrom]
        exact mem_range'_1.mpr (by omega)

end Gap

section Reconcile

variable (hok : o.Ok) (hp : o.pendingGap = some p) (hgap : o.floor < c.firstLineNumber)
  (hne : c.lines ≠ []) (hin : c.firstLineNumber < p.gapUntil)

include hok hp hgap hne hin

theorem accounts_backfill (held' : List (Nat × Line)) (hs : ∀ q ∈ held', q ∈ o.withheld)
    (hk : ∀ q ∈ o.withheld, c.firstLineNumber + c.lines.length ≤ q.1 → q.1 ∈ held'.map Prod.fst) :
    Accounts (o.withheld ++ c.numbered) o.floor
      [.gap o.floor c.firstLineNumber, .lines c.firstLineNumber c.lines] held'
      (c.firstLineNumber + c.lines.length) := by
  have hpo := hok.pending p hp
  refine (Accounts.gap hgap fun q hq => ?_).trans (Accounts.lines hne
    (fun q hq => mem_append_right _ hq) (fun q hq => mem_append_left _ (hs q hq))
    fun q hq hle => ?_)
  · right
    rcases mem_append.mp hq with hq | hq
    · rw [withheld_of_some hp, hpo.withheldFrom] at hq
      exact hin.le.trans (bounds_of_mem_numberFrom hq).1
    · exact (bounds_of_mem_numberFrom hq).1
  · rcases mem_append.mp hq with hq | hq
    · exact hk q hq hle
    · have := lt_of_mem_numbered hq
      omega

theorem relays_reconcileBackfill (hfits : c.firstLineNumber + c.lines.length ≤ u64Max) :
    Relays o c.numbered
      ({ o with pendingGap := none }.reconcileBackfill p.arm c.firstLineNumber c.lines
        (c.firstLineNumber + c.lines.length)) [] := by
  have hpo := hok.pending p hp
  have ha := accounts_backfill hok hp hgap hne hin
  have hh : p.arm.hole = some (o.floor, p.gapUntil) := by
    rw [← hpo.gapFrom]
    rfl
  have hd := disclose_eq (o := { o with pendingGap := none })
    (p.arm.suppressHoleUntil c.firstLineNumber) hok.accepted hh hgap hin.le
  rw [reconcileBackfill, hh]
  simp only [if_pos hgap, hd, if_neg hne, if_pos hin]
  rcases lt_or_ge (c.firstLineNumber + c.lines.length) p.gapUntil with hlt | hge
  · -- the chunk stops short of the withheld run: a second marker
    have hn : ({ p.arm with hole := some (c.firstLineNumber, p.gapUntil) } :
        ArmedGap).noteDelivered (c.firstLineNumber + c.lines.length) =
        { p.arm with hole := some (c.firstLineNumber + c.lines.length, p.gapUntil) } := by
      simp [ArmedGap.noteDelivered, PendingGap.arm, hpo.withheldFrom, not_le.mpr hlt,
        not_lt.mpr hlt.le]
    rw [hn]
    change Relays o c.numbered (sendLines (disclose _ _ _ _ _).1 (disclose _ _ _ _ _).2) []
    rw [disclose_eq _ (fun f hf => ?_) rfl hlt le_rfl, if_neg (lt_irrefl _)]
    · have hnex := hpo.nextLine
      have ht : Accounts o.withheld (c.firstLineNumber + c.lines.length)
          [.gap (c.firstLineNumber + c.lines.length) p.gapUntil, .lines p.gapUntil p.withheld] []
          p.nextLine := by
        rw [withheld_of_some hp, hpo.withheldFrom, hnex]
        have hr := Accounts.rest _ p.gapUntil p.withheld fun q => Iff.rfl
        rw [if_neg hpo.nonempty] at hr
        exact (Accounts.gap hlt fun q hq => .inr (bounds_of_mem_numberFrom hq).1).trans hr
      rw [sendLines_arm hpo.nonempty, hpo.withheldFrom]
      refine Relays.of_last _ [] (by omega) hpo.fits (by simp [send]) rfl (fun f hf => ?_)
        (by simp [send]) rfl ((ha _ (fun q hq => hq) fun q hq _ => mem_map_of_mem hq).trans ht)
      obtain rfl : p.gapUntil = f := Option.some.inj hf
      omega
    · obtain rfl : c.firstLineNumber = f := Option.some.inj hf
      exact Nat.le_add_right _ _
  · rw [noteDelivered_arm hpo hge]
    refine relays_sendLines hpo hge hfits rfl (by simp [discloseHole, send]) rfl rfl
      (fun f hf => ?_) (ha _ (fun q hq => ?_) fun q hq hle => ?_)
    · obtain rfl : c.firstLineNumber = f := Option.some.inj hf
      exact Nat.le_add_right _ _
    · exact ((mem_drop_withheld hp hpo hge).mp hq).1
    · exact mem_map_of_mem ((mem_drop_withheld hp hpo hge).mpr ⟨hq, hle⟩)

end Reconcile

theorem pass_gap (hok : o.Ok) (hgap : o.floor < c.firstLineNumber) (hne : c.lines ≠ [])
    (hfits : c.firstLineNumber + c.lines.length ≤ u64Max)
    (hv : visitChunk o.floor c.firstLineNumber c.lines.length =
      .gapThenServe o.floor c.firstLineNumber c.firstLineNumber
        (c.firstLineNumber + c.lines.length) (c.firstLineNumber + c.lines.length)) :
    Passes o c (o.pass c noBudget) := by
  have hf {o' : RelayAccount} (h : Relays o c.numbered o' []) :
      Relays o c.numbered o'.flushPendingGap [] :=
    h.trans (relays_flushPendingGap h.ok (by simp))
  rw [pass, hv]
  dsimp only
  rw [slice_stop, Nat.sub_self]
  cases hp : o.pendingGap with
  | none =>
    have hre := relays_record hgap hne hfits hok (by simp [hp])
    simp only [classify, hp]
    split
    · exact hf hre
    · exact hre
  | some p =>
    simp only [classify, hp]
    by_cases hs : p.gapFrom = o.floor ∧ p.gapUntil = c.firstLineNumber
    · simp only [if_pos hs]
      exact hf (relays_mergeSameSpan hgap hne hfits hok hp hs.2)
    · simp only [if_neg hs]
      split_ifs with hin
      · exact relays_reconcileBackfill hok hp hgap hne hin hfits
      · refine ⟨relays_flushPendingGap hok fun q hq r hr => .inr ?_, pendingGap_flushPendingGap⟩
        obtain rfl : p = q := Option.some.inj (hp.symm.trans hq)
        exact (Nat.le_of_not_lt hin).trans (bounds_of_mem_numberFrom hr).1

theorem passes_pass (noBudget : Bool) (hok : o.Ok)
    (hfits : c.firstLineNumber + c.lines.length ≤ u64Max) : Passes o c (o.pass c noBudget) := by
  have hc := visitChunk_cases o.floor c.firstLineNumber c.lines.length
  rw [saturatingAdd_eq hfits] at hc
  have hs (h : ∀ q ∈ c.numbered, q.1 < o.floor) : Relays o c.numbered o [] := by
    refine ⟨⟨[], by simp, Accounts.nil (fun q hq => ?_) fun q hq hle => ?_⟩, hok⟩
    · rw [append_nil] at hq
      exact mem_append_left _ hq
    · rw [append_nil]
      rcases mem_append.mp hq with hq | hq
      · exact mem_map_of_mem hq
      · have := h q hq
        omega
  rcases hc with ⟨hv, h⟩ | ⟨hv, hfirst, hstop⟩ | ⟨hv, hgap, _⟩
  · rw [pass, hv]
    refine hs fun q hq => ?_
    have := bounds_of_mem_numberFrom hq
    omega
  · exact pass_serve hfirst hstop hok hfits hv
  · refine pass_gap hok hgap (fun hn => ?_) hfits hv
    simp [visitChunk, hn] at hv

theorem pass_ne_again (h : o.pendingGap = none) : o.pass c noBudget ≠ .again o' := by
  unfold pass
  split
  · simp
  · simp [onServe, h]
  · simp only [classify, h]
    split <;> simp

theorem relays_relayLoop (noBudget : Bool) (hok : o.Ok)
    (hfits : c.firstLineNumber + c.lines.length ≤ u64Max) :
    ∃ o' gapEnds, relayLoop c noBudget 2 o = some (o', gapEnds) ∧ Relays o c.numbered o' [] := by
  have hpa := passes_pass noBudget hok hfits
  unfold relayLoop
  cases heq : o.pass c noBudget with
  | done o' =>
    rw [heq] at hpa
    exact ⟨o', false, rfl, hpa⟩
  | gapEnds o' =>
    rw [heq] at hpa
    exact ⟨o', true, rfl, hpa⟩
  | again o' =>
    rw [heq] at hpa
    obtain ⟨hr, hn⟩ := hpa
    have hpa := passes_pass noBudget hr.ok hfits
    unfold relayLoop
    dsimp only
    cases heq' : o'.pass c noBudget with
    | done o'' =>
      rw [heq'] at hpa
      exact ⟨o'', false, rfl, hr.trans hpa⟩
    | gapEnds o'' =>
      rw [heq'] at hpa
      exact ⟨o'', true, rfl, hr.trans hpa⟩
    | again o'' => exact absurd heq' (pass_ne_again hn)

end RelayAccount

end RioBuild.Log
