import RioBuild.Capacity.Exchange

namespace RioBuild.Capacity

open Lib List EvidenceOp EpochMint

namespace Exchange

variable {members : Option (Finset String)} {lead : Nat} {locals : Set Cell} {st : Exchange}
  {cell : Cell} {e : EvidenceEpoch} {now : Cell → Nat} {b : PendingSchedulerEvidence}

structure Invariant (members : Option (Finset String)) (lead : Nat) (locals : Set Cell)
    (st : Exchange) : Prop where
  configured : st.scheduler.Configured members lead
  increasing : (st.minted.map (·.epoch)).Pairwise (· < ·)
  le_prev : ∀ x ∈ st.minted, x.epoch ≤ st.pending.mint.prev
  clear_le : ∀ cell, ∀ ev ∈ st.pending.cells.lookup cell, ∀ c ∈ ev.planes.clear,
    c ≤ st.pending.mint.prev
  consistent : ∀ cell, Scheduler.isMember members cell →
    Consistent (st.mintedOf .clear cell) (st.mintedOf .mark cell) (st.deliveredOf .clear cell)
      (st.deliveredOf .mark cell) (cell ∈ locals) (st.scheduler.view cell)
  buffered : ∀ cell, Scheduler.isMember members cell →
    Buffered (st.mintedOf .clear cell) (st.mintedOf .mark cell) (st.scheduler.view cell)
      (st.pending.cells.lookup cell)
  sent : ∀ r ∈ st.requests, ∃ b : PendingSchedulerEvidence, r = b.request ∧
    ∀ cell, Scheduler.isMember members cell → ∀ ev ∈ b.cells.lookup cell,
      Shipped (st.mintedOf .clear cell) (st.mintedOf .mark cell) (st.scheduler.view cell) ev

theorem Invariant.disjoint (h : Invariant members lead locals st) :
    ∀ e ∈ st.mintedOf .clear cell, e ∉ st.mintedOf .mark cell := by
  intro e hc hm
  have hn : (st.minted.map (·.epoch)).Nodup := h.increasing.imp ne_of_lt
  have heq := inj_on_of_nodup_map hn hc hm rfl
  cases heq

theorem mint_next {mint : EpochMint} (hbound : (mint.next clock).2 < 2 ^ 64 - 1) :
    mint.prev < (mint.next clock).2 ∧ (mint.next clock).1.prev = (mint.next clock).2 := by
  refine ⟨?_, rfl⟩
  simp only [EpochMint.next, EvidenceEpoch] at hbound ⊢
  omega

def minting (st : Exchange) (pending : PendingSchedulerEvidence) (x : CellEvent) : Exchange :=
  { st with pending := pending, minted := st.minted ++ [x] }

theorem mem_mintedOf_minting : e ∈ (st.minting b x).mintedOf polarity cell ↔
    e ∈ st.mintedOf polarity cell ∨ x = ⟨cell, polarity, e⟩ := by
  simp [mintedOf, minting, eq_comm]

theorem Invariant.minting (h : Invariant members lead locals st)
    (hx : st.pending.mint.prev < x.epoch) (hce : b.cells = st.pending.cells.insert x.cell ev)
    (hmin : b.mint.prev = x.epoch) (hcl : ∀ c ∈ ev.planes.clear, c ≤ x.epoch)
    (hb : Scheduler.isMember members x.cell →
      Buffered ((st.minting b x).mintedOf .clear x.cell) ((st.minting b x).mintedOf .mark x.cell)
        (st.scheduler.view x.cell) (some ev)) : Invariant members lead locals (st.minting b x) := by
  have hlt : ∀ y ∈ st.minted, y.epoch < x.epoch := fun y hy => (h.le_prev y hy).trans_lt hx
  have hmi : ∀ cell, Minted (st.mintedOf .clear cell) (st.mintedOf .mark cell)
      ((st.minting b x).mintedOf .clear cell) ((st.minting b x).mintedOf .mark cell) := by
    intro cell
    refine ⟨fun e he => mem_mintedOf_minting.mpr (.inl he),
      fun e he => mem_mintedOf_minting.mpr (.inl he), fun c hc => ?_⟩
    refine (mem_mintedOf_minting.mp hc).imp_right ?_
    rintro rfl m hm
    exact hlt _ hm
  refine ⟨h.configured, ?_, ?_, ?_, ?_, ?_, ?_⟩
  · simp only [Exchange.minting, map_append, map_cons, map_nil,
      pairwise_append, pairwise_singleton, mem_singleton, mem_map, true_and]
    refine ⟨h.increasing, ?_⟩
    rintro _ ⟨y, hy, rfl⟩ _ rfl
    exact hlt y hy
  · intro y hy
    rcases mem_append.mp hy with hy | hy
    · exact (hlt y hy).le.trans hmin.ge
    · rw [mem_singleton.mp hy]
      exact hmin.ge
  · intro cell ev' hev' c hc
    simp only [Exchange.minting, hce, Map.lookup_insert_ite] at hev'
    split at hev'
    · obtain rfl : ev = ev' := Option.some.inj hev'
      exact (hcl c hc).trans hmin.ge
    · exact ((h.clear_le cell ev' hev' c hc).trans hx.le).trans hmin.ge
  · exact fun cell hcel => (h.consistent cell hcel).mint (hmi cell)
  · intro cell hcel
    by_cases hx : cell = x.cell
    · subst hx
      simpa [Exchange.minting, hce] using hb hcel
    · have ho : ∀ polarity, (st.minting b x).mintedOf polarity cell =
          st.mintedOf polarity cell := by
        intro polarity
        ext e
        rw [mem_mintedOf_minting, or_iff_left]
        rintro rfl
        exact hx rfl
      rw [ho, ho]
      simpa [Exchange.minting, hce, hx] using h.buffered cell hcel
  · intro r hr
    obtain ⟨b', rfl, hs⟩ := h.sent r hr
    exact ⟨b', rfl, fun cell hcel ev hev => (hs cell hcel ev hev).mint (hmi cell)⟩

theorem mintedOf_minting_self : (st.minting b ⟨cell, polarity, e⟩).mintedOf polarity cell =
    insert e (st.mintedOf polarity cell) := by
  ext e'
  simp [mem_mintedOf_minting, or_comm, eq_comm]

theorem mintedOf_minting_ne (hne : polarity ≠ other) :
    (st.minting b ⟨cell, polarity, e⟩).mintedOf other cell = st.mintedOf other cell := by
  ext e'
  simp [mem_mintedOf_minting, hne]

section

variable (h : Invariant members lead locals st)
include h

theorem Invariant.lt_next (he : st.pending.mint.prev < e) :
    ∀ e' ∈ st.mintedOf .clear cell ∪ st.mintedOf .mark cell, e' < e := by
  rintro e' (he' | he')
  all_goals exact (h.le_prev _ he').trans_lt he

section

variable (hbound : (st.pending.mint.next clock).2 < 2 ^ 64 - 1)
include hbound

theorem Invariant.clear :
    Invariant members lead locals (st.minting (st.pending.bufferClearEvent clock cell).1
      ⟨cell, .clear, (st.pending.mint.next clock).2⟩) := by
  obtain ⟨hp, -⟩ := mint_next hbound
  refine h.minting hp rfl rfl ?_ fun hc => ?_
  · rintro c ⟨⟩
    exact le_rfl
  · rw [mintedOf_minting_self, mintedOf_minting_ne (by decide)]
    exact buffered_clear (h.lt_next hp)

theorem Invariant.bufferMarkEvent : st.pending.bufferMarkEvent clock cell = some
    ({ cells := st.pending.cells.insert cell
        (.marked (st.pending.mint.next clock).2 (st.pending.cells.lookup cell))
       mint := (st.pending.mint.next clock).1 }, (st.pending.mint.next clock).2) := by
  obtain ⟨hp, -⟩ := mint_next hbound
  have ha : ∀ c, c ≤ st.pending.mint.prev →
      CellEvidence.ofClearThenMark c (st.pending.mint.next clock).2 =
        some (.clearThenMark c (st.pending.mint.next clock).2) :=
    fun c hc => if_pos (hc.trans_lt hp)
  have hle := h.clear_le cell
  unfold PendingSchedulerEvidence.bufferMarkEvent
  cases hl : st.pending.cells.lookup cell with
  | none => rfl
  | some ev =>
    cases ev with
    | clear c | clearThenMark c m =>
      simp only [ha c (hle _ hl c rfl)]
      rfl
    | mark m => rfl

end

theorem Invariant.mark (cell : Cell) (hbound : (st.pending.mint.next clock).2 < 2 ^ 64 - 1) :
    ∃ b, st.pending.bufferMarkEvent clock cell = some (b, (st.pending.mint.next clock).2) ∧
      b.mint = (st.pending.mint.next clock).1 ∧ Invariant members lead locals
        (st.minting b ⟨cell, .mark, (st.pending.mint.next clock).2⟩) := by
  obtain ⟨hp, -⟩ := mint_next hbound
  refine ⟨_, h.bufferMarkEvent hbound, rfl, h.minting hp rfl rfl ?_ fun hce => ?_⟩
  · intro c hc
    have hle := h.clear_le cell
    cases hl : st.pending.cells.lookup cell with
    | none =>
      rw [hl] at hc
      cases hc
    | some ev =>
      rw [hl] at hc
      cases ev with
      | clear c' | clearThenMark c' m => exact (hle _ hl c hc).trans hp.le
      | mark m => cases hc
  · rw [mintedOf_minting_self, mintedOf_minting_ne (by decide)]
    exact (h.buffered cell hce).mark h.disjoint (h.lt_next hp)

end

theorem mem_request_clears :
    (cell, e) ∈ b.request.clears ↔ ∃ ev ∈ b.cells.lookup cell, e ∈ ev.planes.clear :=
  Map.mem_filterMap_rows (f := fun ev : CellEvidence => ev.planes.clear)

theorem mem_request_marks :
    (cell, e) ∈ b.request.marks ↔ ∃ ev ∈ b.cells.lookup cell, e ∈ ev.planes.mark :=
  Map.mem_filterMap_rows (f := fun ev : CellEvidence => ev.planes.mark)

theorem deliveredOf_clear : (st.deliver now b.request).deliveredOf .clear cell =
    {e | ∃ ev ∈ b.cells.lookup cell, e ∈ ev.planes.clear} ∪ st.deliveredOf .clear cell := by
  ext e
  simp [deliveredOf, deliver, mem_request_clears, or_comm]

theorem deliveredOf_mark : (st.deliver now b.request).deliveredOf .mark cell =
    {e | ∃ ev ∈ b.cells.lookup cell, e ∈ ev.planes.mark} ∪ st.deliveredOf .mark cell := by
  ext e
  simp [deliveredOf, deliver, mem_request_marks, or_comm]

@[simp] theorem mintedOf_deliver :
    (st.deliver now r).mintedOf polarity cell = st.mintedOf polarity cell := rfl

section

variable (h : Invariant members lead locals st)
include h

theorem Invariant.deliver
    (hs : ∀ cell, Scheduler.isMember members cell → ∀ ev ∈ b.cells.lookup cell,
      Shipped (st.mintedOf .clear cell) (st.mintedOf .mark cell) (st.scheduler.view cell) ev) :
    Invariant members lead locals (st.deliver now b.request) := by
  have hv : ∀ cell, Scheduler.isMember members cell →
      (st.deliver now b.request).scheduler.view cell =
        (b.cells.lookup cell).elim (st.scheduler.view cell)
          fun ev => (st.scheduler.view cell).deliver lead (now cell) ev.planes :=
    fun cell hc => Scheduler.view_applyRequest h.configured hc b
  have hcv : ∀ cell, Scheduler.isMember members cell → ∀ e, (st.scheduler.view cell).Covers e →
        ((st.deliver now b.request).scheduler.view cell).Covers e := by
    intro cell hc e he
    rw [hv cell hc]
    cases b.cells.lookup cell with
    | none => exact he
    | some ev => exact he.deliver ev.planes
  refine ⟨h.configured.applyRequest b.request, h.increasing, h.le_prev, h.clear_le, ?_, ?_, ?_⟩
  · intro cell hc
    rw [deliveredOf_clear, deliveredOf_mark, hv cell hc]
    have hco := h.consistent cell hc
    cases hl : b.cells.lookup cell with
    | none => simpa using hco
    | some ev =>
      have hd : Consistent _ _ _ _ _ ((st.scheduler.view cell).deliver lead (now cell) ev.planes) :=
        hco.deliver h.disjoint (hs cell hc ev hl)
      simpa using hd
  · exact fun cell hc => (h.buffered cell hc).mono (hcv cell hc)
  · intro r hr
    obtain ⟨b', rfl, hs'⟩ := h.sent r hr
    exact ⟨b', rfl, fun cell hc ev hev => (hs' cell hc ev hev).mono (hcv cell hc)⟩

theorem Invariant.shipped
    (hc : Scheduler.isMember members cell) (he : ev ∈ st.pending.cells.lookup cell) :
    Shipped (st.mintedOf .clear cell) (st.mintedOf .mark cell) (st.scheduler.view cell) ev := by
  have hb := h.buffered cell hc
  rw [Option.mem_def.mp he] at hb
  exact hb.1

theorem Invariant.request :
    Invariant members lead locals { st with requests := st.requests ++ [st.pending.request] } := by
  refine { h with sent := fun r hr => ?_ }
  rcases mem_append.mp hr with hr | hr
  · exact h.sent r hr
  · rw [mem_singleton.mp hr]
    exact ⟨st.pending, rfl, fun cell hc ev he => h.shipped hc he⟩

theorem Invariant.drain (hd : st.pending.request ∈ st.delivered) :
    Invariant members lead locals { st with pending := st.pending.drainDelivered } := by
  refine { h with clear_le := ?_, buffered := ?_ }
  · simp [PendingSchedulerEvidence.drainDelivered]
  · intro cell hc
    have hb := h.buffered cell hc
    cases hl : st.pending.cells.lookup cell with
    | none =>
      rw [hl] at hb
      exact hb
    | some ev =>
      rw [hl] at hb
      intro e he
      refine CellView.Covers.le ((h.consistent cell hc).covers ev.newest ?_) (hb.2 e he)
      cases ev with
      | clear c =>
        exact .inl ⟨_, hd, mem_request_clears.mpr ⟨_, hl, rfl⟩⟩
      | mark m | clearThenMark c m =>
        exact .inr ⟨_, hd, mem_request_marks.mpr ⟨_, hl, rfl⟩⟩

theorem Invariant.localClear (hl : cell ∈ locals) :
    Invariant members lead locals { st with scheduler := st.scheduler.localClear cell } := by
  have hv : ∀ c, (st.scheduler.localClear cell).view c =
      if c = cell then { st.scheduler.view c with entry := none, rung := [] }
      else st.scheduler.view c := by
    intro c
    by_cases hc : c = cell
    · subst hc
      simp [Scheduler.localClear, Scheduler.view, IceBackoff.clear]
    · simp [Scheduler.localClear, Scheduler.view, IceBackoff.clear, hc]
  have hcv : ∀ c e, (st.scheduler.view c).Covers e →
      ((st.scheduler.localClear cell).view c).Covers e := by
    intro c e he
    rw [hv]
    split
    all_goals exact he
  refine ⟨h.configured, h.increasing, h.le_prev, h.clear_le, ?_, ?_, ?_⟩
  · intro c hc
    have hco := h.consistent c hc
    simp only [hv]
    split_ifs with heq
    · subst heq
      exact { hco with
        entry := by simp
        last := by simp
        rung := by simp
        cleared := fun hn => absurd hl hn
        rungs := by simp }
    · exact hco
  · exact fun c hc => (h.buffered c hc).mono (hcv c)
  · intro r hr
    obtain ⟨b', rfl, hs'⟩ := h.sent r hr
    exact ⟨b', rfl, fun c hc ev hev => (hs' c hc ev hev).mono (hcv c)⟩

end

end Exchange

def EvidenceOp.clock : EvidenceOp → Option UInt64
  | .clear _ now => some now
  | .mark _ now => some now
  | _ => none

def EpochMint.epochs (mint : EpochMint) : List UInt64 → List EvidenceEpoch
  | [] => []
  | now :: clocks => (mint.next now).2 :: (mint.next now).1.epochs clocks

namespace Exchange

variable {members : Option (Finset String)} {lead : Nat} {locals : Set Cell} {st st' : Exchange}
  {op : EvidenceOp} {ops : List EvidenceOp}

theorem Invariant.step (h : Invariant members lead locals st)
    (hl : ∀ cell, op = .localClear cell → cell ∈ locals)
    (hbound : ∀ e ∈ st.pending.mint.epochs op.clock.toList, e < 2 ^ 64 - 1) :
    ∃ st', st.step op = some st' ∧ Invariant members lead locals st' ∧ st'.minted.map (·.epoch) =
        st.minted.map (·.epoch) ++ st.pending.mint.epochs op.clock.toList ∧
      ∀ clocks, st.pending.mint.epochs (op.clock.toList ++ clocks) =
        st.pending.mint.epochs op.clock.toList ++ st'.pending.mint.epochs clocks := by
  cases op with
  | clear cell now =>
    refine ⟨_, rfl, h.clear (hbound _ mem_cons_self), ?_, fun _ => rfl⟩
    simp [clock, epochs, EpochMint.next]
  | mark cell now =>
    obtain ⟨b, hb, hm, hi⟩ := h.mark cell (hbound _ mem_cons_self)
    refine ⟨_, by rw [step, hb]; rfl, hi, ?_, fun clocks => ?_⟩
    · simp [clock, epochs, Exchange.minting]
    · simp [clock, epochs, Exchange.minting, hm]
  | request => exact ⟨_, rfl, h.request, by simp [clock, epochs], fun _ => rfl⟩
  | deliver k now =>
    cases hk : st.requests[k]? with
    | none =>
      refine ⟨st, by rw [step, hk], h, ?_, fun _ => rfl⟩
      simp [clock, epochs]
    | some r =>
      obtain ⟨b, rfl, hs⟩ := h.sent r (mem_of_getElem? hk)
      refine ⟨_, by rw [step, hk], h.deliver hs, ?_, fun _ => rfl⟩
      simp [clock, epochs, Exchange.deliver]
  | ack now =>
    refine ⟨_, rfl, ?_, ?_, fun _ => rfl⟩
    · have hd : Invariant members lead locals (Exchange.deliver _ now st.pending.request) :=
        h.request.deliver fun cell hc ev he => h.shipped hc he
      refine hd.drain ?_
      simp [Exchange.deliver]
    · simp [clock, epochs, Exchange.deliver]
  | localClear cell =>
    refine ⟨_, rfl, h.localClear (hl cell rfl), ?_, fun _ => rfl⟩
    simp [clock, epochs]

theorem Invariant.run (h : Invariant members lead locals st)
    (hl : ∀ cell, .localClear cell ∈ ops → cell ∈ locals)
    (hbound : ∀ e ∈ st.pending.mint.epochs (ops.filterMap clock), e < 2 ^ 64 - 1) :
    ∃ st', ops.foldlM Exchange.step st = some st' ∧ Invariant members lead locals st' ∧
      st'.minted.map (·.epoch) = st.minted.map (·.epoch) ++
        st.pending.mint.epochs (ops.filterMap clock) := by
  induction ops generalizing st with
  | nil => exact ⟨st, rfl, h, by simp [epochs]⟩
  | cons op ops ih =>
    have hcl : (op :: ops).filterMap clock = op.clock.toList ++ ops.filterMap clock := by
      rw [filterMap_cons]
      cases op.clock <;> rfl
    have ho : ∀ e ∈ st.pending.mint.epochs op.clock.toList, e < 2 ^ 64 - 1 := by
      intro e he
      refine hbound e ?_
      rw [hcl]
      cases hck : op.clock with
      | none => simp [hck, epochs] at he
      | some now =>
        rw [hck] at he
        obtain rfl := mem_singleton.mp he
        exact mem_cons_self
    obtain ⟨st₁, hs₁, hi₁, hm₁, hep⟩ :=
      h.step (fun cell hc => hl cell (hc ▸ mem_cons_self)) ho
    rw [hcl, hep] at hbound ⊢
    obtain ⟨st', hs', hi, hm⟩ :=
      ih hi₁ (fun cell hc => hl cell (mem_cons_of_mem _ hc))
        fun e he => hbound e (mem_append_right _ he)
    refine ⟨st', ?_, hi, by rw [hm, hm₁, append_assoc]⟩
    rw [foldlM_cons, hs₁]
    exact hs'

theorem Invariant.init : Invariant members lead locals
    { scheduler := { ice := { maxLeadTime := lead, members := members } } } where
  configured := ⟨rfl, rfl⟩
  increasing := .nil
  le_prev := by simp
  clear_le := by simp
  consistent cell _ := by
    refine ⟨?_, ?_, ?_, ?_, ?_, ?_, ?_, ?_, ?_⟩ <;> simp [deliveredOf, Scheduler.view]
  buffered cell _ := by simp [Buffered, mintedOf]
  sent := by simp

theorem Invariant.ladder_iff (h : Invariant members lead locals st)
    (hce : Scheduler.isMember members cell) (hl : cell ∉ locals) :
    (st.scheduler.ice.cells.lookup cell).isSome ↔ ∃ e ∈ st.deliveredOf .mark cell,
      IsGreatest (st.deliveredOf .clear cell ∪ st.deliveredOf .mark cell) e := by
  have hc := h.consistent cell hce
  constructor
  · intro hen
    obtain ⟨m, hm⟩ := exists_mem_of_ne_nil _ (hc.entry.mp hen)
    obtain ⟨w, hw, ha⟩ := hc.exists_applied hm
    refine ⟨w, hc.rung w hw, .inr (hc.rung w hw), fun e he => ?_⟩
    obtain ⟨w', hw', hle⟩ := hc.covers e he
    rw [ha] at hw'
    obtain rfl : w = w' := Option.some.inj hw'
    exact hle
  · rintro ⟨e, he, hgt⟩
    refine hc.entry.mpr fun hr => ?_
    obtain ⟨w, hw, hle⟩ := hc.covers e (.inr he)
    have hcl := hc.cleared hl hr w hw
    have heq : e = w := hle.antisymm (hgt.2 (.inl hcl))
    exact h.disjoint w (hc.clears hcl) (heq ▸ hc.marks he)

theorem Invariant.redeliver (h : Invariant members lead locals st) (hr : r ∈ st.delivered)
    (now : Cell → Nat) : st.scheduler.applyRequest now r = st.scheduler := by
  refine Scheduler.applyRequest_eq_self (fun x hx hm => ?_) fun x hx hm => ?_
  · rw [h.configured.memberGate] at hm
    exact (h.consistent x.1 hm).covers x.2 (.inl ⟨r, hr, hx⟩)
  · rw [h.configured.memberGate] at hm
    exact (h.consistent x.1 hm).covers x.2 (.inr ⟨r, hr, hx⟩)

theorem redelivery_safe (lead : Nat) (members : Option (Finset String)) (ops : List EvidenceOp)
    (hbound : ∀ e ∈ epochs {} (ops.filterMap clock), e < 2 ^ 64 - 1) :
    ∃ st, run lead members ops = some st ∧
      st.minted.map (·.epoch) = epochs {} (ops.filterMap clock) ∧
      (st.minted.map (·.epoch)).Pairwise (· < ·) ∧
      (∀ r ∈ st.delivered, ∀ now, st.scheduler.ice.applyRequest now r = st.scheduler.ice) ∧
      ∀ cell, Scheduler.isMember members cell →
        (.localClear cell ∉ ops → ((st.scheduler.ice.cells.lookup cell).isSome ↔
          ∃ e ∈ st.deliveredOf .mark cell,
            IsGreatest (st.deliveredOf .clear cell ∪ st.deliveredOf .mark cell) e)) ∧
        ((st.scheduler.ice.cells.lookup cell).isSome ↔ st.scheduler.rungs cell ≠ []) ∧
        ∀ m ∈ st.scheduler.rungs cell, ∀ newest ∈ st.deliveredOf .mark cell,
          ∀ c ∈ st.mintedOf .clear cell, c < newest → c < m := by
  have hin : Invariant members lead {c | .localClear c ∈ ops} _ := Invariant.init
  obtain ⟨st, hs, hi, hm⟩ := hin.run (fun _ hc => hc) hbound
  refine ⟨st, hs, hm, hi.increasing, fun r hr now => ?_, fun cell hc => ⟨?_, ?_, ?_⟩⟩
  · rw [← Scheduler.ice_applyRequest, hi.redeliver hr]
  · exact fun hl => hi.ladder_iff hc hl
  · exact (hi.consistent cell hc).entry
  · exact (hi.consistent cell hc).rungs

/-- A mark is sent, a success and a second failure follow while the clock runs back, and both
requests arrive, the first one twice. -/
def backAndForth : List EvidenceOp :=
  let cell : Cell := toLex ("c8g", .spot)
  [.mark cell 5, .request, .clear cell 3, .mark cell 4, .deliver 0 fun _ => 0, .ack fun _ => 1,
    .deliver 0 fun _ => 2]

theorem redelivery_safe_backAndForth :
    ∃ st, run 600 none backAndForth = some st ∧ st.minted.map (·.epoch) = [5, 6, 7] ∧
      ∀ r ∈ st.delivered, ∀ now, st.scheduler.ice.applyRequest now r = st.scheduler.ice := by
  have he : epochs {} (backAndForth.filterMap clock) = [5, 6, 7] := by
    decide
  obtain ⟨st, hs, hm, -, hr, -⟩ := redelivery_safe 600 none backAndForth (by decide)
  exact ⟨st, hs, hm.trans he, hr⟩

end Exchange

end RioBuild.Capacity
