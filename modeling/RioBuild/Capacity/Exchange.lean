import RioBuild.Capacity.Evidence

namespace RioBuild.Capacity

open Lib List

structure CellView where
  entry : Option IceState := none
  applied : Option EvidenceEpoch := none
  rung : List EvidenceEpoch := []

namespace CellView

variable {v : CellView} {e : EvidenceEpoch}

def Covers (v : CellView) (e : EvidenceEpoch) : Prop := ∃ w ∈ v.applied, e ≤ w

instance : Decidable (v.Covers e) := inferInstanceAs (Decidable (∃ w ∈ v.applied, e ≤ w))

theorem epochGate_some : epochGate v.applied (some e) = if v.Covers e then .noOp else .apply e := by
  cases ha : v.applied with
  | none => simp [epochGate, Covers, ha]
  | some w =>
    by_cases hw : w < e
    · simp [epochGate, Covers, ha, hw]
    · simp [epochGate, Covers, ha, Nat.le_of_not_lt hw]

def clear (e : EvidenceEpoch) (v : CellView) : CellView :=
  if v.Covers e then v else ⟨none, some e, []⟩

def mark (maxLeadTime now : Nat) (e : EvidenceEpoch) (v : CellView) : CellView :=
  if v.Covers e then v
  else ⟨some (IceBackoff.marked maxLeadTime now v.entry), some e, v.rung ++ [e]⟩

def deliver (maxLeadTime now : Nat) (p : CellPlanes) (v : CellView) : CellView :=
  let v := p.clear.elim v (clear · v)
  p.mark.elim v (mark maxLeadTime now · v)

section

variable (h : v.Covers e)
include h

theorem Covers.le (hle : e' ≤ e) : v.Covers e' := by
  obtain ⟨w, hw, he⟩ := h
  exact ⟨w, hw, hle.trans he⟩

theorem Covers.of_gate (hn : v'.applied = some c) : (if v.Covers c then v else v').Covers e := by
  split
  · exact h
  · rename_i ho
    refine ⟨c, hn, ?_⟩
    by_contra hlt
    exact ho (h.le (Nat.le_of_not_le hlt))

theorem Covers.clear (c : EvidenceEpoch) : (v.clear c).Covers e := h.of_gate rfl

theorem Covers.mark (m : EvidenceEpoch) : (v.mark lead now m).Covers e :=
  h.of_gate rfl

theorem Covers.deliver {lead now : Nat} (p : CellPlanes) : (v.deliver lead now p).Covers e := by
  have hc : (p.clear.elim v (CellView.clear · v)).Covers e := by
    cases p.clear with
    | none => exact h
    | some c => exact h.clear c
  unfold CellView.deliver
  cases p.mark with
  | none => exact hc
  | some m => exact hc.mark m

end

end CellView

section Consistent

variable {C M DC DM : Set EvidenceEpoch} {localClear : Prop} {v : CellView} {ev : CellEvidence}
  {e lead now : Nat}

structure Consistent (C M DC DM : Set EvidenceEpoch) (localClear : Prop) (v : CellView) :
    Prop where
  clears : DC ⊆ C
  marks : DM ⊆ M
  covers : ∀ e ∈ DC ∪ DM, v.Covers e
  applied : ∀ w ∈ v.applied, w ∈ DC ∪ DM
  entry : v.entry.isSome ↔ v.rung ≠ []
  last : v.rung ≠ [] → v.rung.getLast? = v.applied
  rung : ∀ m ∈ v.rung, m ∈ DM
  cleared : ¬localClear → v.rung = [] → ∀ w ∈ v.applied, w ∈ DC
  rungs : ∀ m ∈ v.rung, ∀ m' ∈ DM, ∀ c ∈ C, c < m' → c < m

section

variable (h : Consistent C M DC DM localClear v)
include h

theorem Consistent.exists_applied (hm : m ∈ v.rung) : ∃ w ∈ v.rung, v.applied = some w := by
  have hne : v.rung ≠ [] := ne_nil_of_mem hm
  refine ⟨v.rung.getLast hne, getLast_mem hne, ?_⟩
  rw [← h.last hne, getLast?_eq_getLast_of_ne_nil hne]

theorem Consistent.clear (hc : c ∈ C) : Consistent C M (insert c DC) DM localClear (v.clear c) := by
  unfold CellView.clear
  split_ifs with hcv
  · refine { h with clears := Set.insert_subset hc h.clears, covers := ?_, applied := ?_,
                    cleared := ?_ }
    · rintro e ((rfl | he) | he)
      · exact hcv
      · exact h.covers e (.inl he)
      · exact h.covers e (.inr he)
    · intro w hw
      exact (h.applied w hw).imp_left (Set.mem_insert_of_mem _)
    · intro hl hr w hw
      exact Set.mem_insert_of_mem _ (h.cleared hl hr w hw)
  · have hlt : ∀ e ∈ DC ∪ DM, e ≤ c := by
      intro e he
      obtain ⟨w, hw, hle⟩ := h.covers e he
      exact hle.trans (le_of_lt (Nat.lt_of_not_le fun hcw => hcv ⟨w, hw, hcw⟩))
    refine ⟨Set.insert_subset hc h.clears, h.marks, ?_, ?_, ?_, ?_, ?_, ?_, ?_⟩
    · rintro e ((rfl | he) | he)
      · exact ⟨e, rfl, le_refl e⟩
      · exact ⟨c, rfl, hlt e (.inl he)⟩
      · exact ⟨c, rfl, hlt e (.inr he)⟩
    · rintro w ⟨⟩
      exact .inl (Set.mem_insert _ _)
    · simp
    · simp
    · simp
    · rintro - - w ⟨⟩
      exact Set.mem_insert _ _
    · simp

theorem Consistent.mark (hm : m ∈ M) (hd : ∀ e ∈ C, e ∉ M) (hcv : ∀ c ∈ C, c < m → v.Covers c) :
    Consistent C M DC (insert m DM) localClear (v.mark lead now m) := by
  unfold CellView.mark
  split_ifs with ho
  · obtain ⟨w', hw', hmw⟩ := ho
    refine { h with marks := Set.insert_subset hm h.marks, covers := ?_, applied := ?_,
                    rung := ?_, rungs := ?_ }
    · rintro e (he | (rfl | he))
      · exact h.covers e (.inl he)
      · exact ⟨w', hw', hmw⟩
      · exact h.covers e (.inr he)
    · intro w hw
      exact (h.applied w hw).imp_right (Set.mem_insert_of_mem _)
    · intro m₁ hm₁
      exact Set.mem_insert_of_mem _ (h.rung m₁ hm₁)
    · rintro m₁ hm₁ m' (rfl | hm') c hc hlt
      · -- the watermark is a delivered mark, at least as new as this one
        obtain ⟨w, hw, ha⟩ := h.exists_applied hm₁
        have hww : w' = w := by simpa [ha] using hw'.symm
        exact h.rungs m₁ hm₁ w (h.rung w hw) c hc (hlt.trans_le (hww ▸ hmw))
      · exact h.rungs m₁ hm₁ m' hm' c hc hlt
  · have hlt : ∀ w ∈ v.applied, w < m := fun w hw => Nat.lt_of_not_le fun hmw => ho ⟨w, hw, hmw⟩
    have hle : ∀ e ∈ DC ∪ DM, e ≤ m := by
      intro e he
      obtain ⟨w, hw, hew⟩ := h.covers e he
      exact hew.trans (hlt w hw).le
    refine ⟨h.clears, Set.insert_subset hm h.marks, ?_, ?_, ?_, ?_, ?_, ?_, ?_⟩
    · rintro e (he | (rfl | he))
      · exact ⟨m, rfl, hle e (.inl he)⟩
      · exact ⟨e, rfl, le_refl e⟩
      · exact ⟨m, rfl, hle e (.inr he)⟩
    · rintro w ⟨⟩
      exact .inr (Set.mem_insert _ _)
    · simp
    · simp
    · intro m₁ hm₁
      rcases mem_append.mp hm₁ with hm₁ | hm₁
      · exact Set.mem_insert_of_mem _ (h.rung m₁ hm₁)
      · rw [mem_singleton.mp hm₁]
        exact Set.mem_insert _ _
    · simp
    · intro m₁ hm₁ m' hm' c hc hcm'
      have hcm : c < m := by
        rcases hm' with rfl | hm'
        · exact hcm'
        · exact hcm'.trans_le (hle m' (.inr hm'))
      rcases mem_append.mp hm₁ with hm₁ | hm₁
      · -- the clear is behind the watermark, which is the last mark of the rung
        obtain ⟨w, hw, ha⟩ := h.exists_applied hm₁
        obtain ⟨w', hw', hcw⟩ := hcv c hc hcm
        have hww : w' = w := by simpa [ha] using hw'.symm
        have hne : c ≠ w := fun hcw => hd c hc (hcw ▸ h.marks (h.rung w hw))
        exact h.rungs m₁ hm₁ w (h.rung w hw) c hc (lt_of_le_of_ne (hww ▸ hcw) hne)
      · rw [mem_singleton.mp hm₁]
        exact hcm

end

structure Shipped (C M : Set EvidenceEpoch) (v : CellView) (ev : CellEvidence) : Prop where
  clear : ∀ c ∈ ev.planes.clear, c ∈ C
  mark : ∀ m ∈ ev.planes.mark, m ∈ M
  covers : ∀ m ∈ ev.planes.mark, ∀ c ∈ C, c < m → (∃ c' ∈ ev.planes.clear, c ≤ c') ∨ v.Covers c

theorem Shipped.mono (h : Shipped C M v ev)
    (hv : ∀ e, v.Covers e → v'.Covers e) : Shipped C M v' ev :=
  ⟨h.clear, h.mark, fun m hm c hc hlt => (h.covers m hm c hc hlt).imp_right (hv c)⟩

/-- More events, with no clear older than a mark that was there. -/
structure Minted (C M C' M' : Set EvidenceEpoch) : Prop where
  clears : C ⊆ C'
  marks : M ⊆ M'
  fresh : ∀ c ∈ C', c ∈ C ∨ ∀ m ∈ M, m < c

theorem Minted.mem_of_lt (h : Minted C M C' M') (hc : c ∈ C') (hm : m ∈ M) (hlt : c < m) : c ∈ C :=
  (h.fresh c hc).resolve_right fun hn => lt_asymm hlt (hn m hm)

theorem Consistent.mint (h : Consistent C M DC DM localClear v) (hmi : Minted C M C' M') :
    Consistent C' M' DC DM localClear v :=
  { h with
    clears := h.clears.trans hmi.clears
    marks := h.marks.trans hmi.marks
    rungs := fun m hm m' hm' c hc hlt =>
      h.rungs m hm m' hm' c (hmi.mem_of_lt hc (h.marks hm') hlt) hlt }

theorem Shipped.mint (h : Shipped C M v ev) (hmi : Minted C M C' M') : Shipped C' M' v ev where
  clear c hc := hmi.clears (h.clear c hc)
  mark m hm := hmi.marks (h.mark m hm)
  covers m hm c hc hlt := h.covers m hm c (hmi.mem_of_lt hc (h.mark m hm) hlt) hlt

def Buffered (C M : Set EvidenceEpoch) (v : CellView) : Option CellEvidence → Prop
  | none => ∀ e ∈ C ∪ M, v.Covers e
  | some ev => Shipped C M v ev ∧ ∀ e ∈ C ∪ M, e ≤ ev.newest

theorem Buffered.mono (h : Buffered C M v held)
    (hv : ∀ e, v.Covers e → v'.Covers e) : Buffered C M v' held := by
  cases held with
  | none => exact fun e he => hv e (h e he)
  | some ev => exact ⟨h.1.mono hv, h.2⟩

theorem buffered_clear (hlt : ∀ e' ∈ C ∪ M, e' < e) :
    Buffered (insert e C) M v (some (.clear e)) := by
  refine ⟨⟨?_, ?_, ?_⟩, ?_⟩
  · rintro c ⟨⟩
    exact Set.mem_insert _ _
  · rintro m ⟨⟩
  · rintro m ⟨⟩
  · rintro e' ((rfl | he') | he')
    · exact le_rfl
    · exact (hlt e' (.inl he')).le
    · exact (hlt e' (.inr he')).le

def CellEvidence.marked (e : EvidenceEpoch) : Option CellEvidence → CellEvidence
  | none => .mark e
  | some (.mark _) => .mark e
  | some (.clear c) => .clearThenMark c e
  | some (.clearThenMark c _) => .clearThenMark c e

theorem Buffered.mark (h : Buffered C M v held) (hd : ∀ e ∈ C, e ∉ M) (hlt : ∀ e' ∈ C ∪ M, e' < e) :
    Buffered C (insert e M) v (some (.marked e held)) := by
  have hn : (CellEvidence.marked e held).newest = e := by
    cases held with
    | none => rfl
    | some ev => cases ev <;> rfl
  have hle : ∀ e' ∈ C ∪ insert e M, e' ≤ (CellEvidence.marked e held).newest := by
    rw [hn]
    rintro e' (he' | (rfl | he'))
    · exact (hlt e' (.inl he')).le
    · exact le_rfl
    · exact (hlt e' (.inr he')).le
  refine ⟨?_, hle⟩
  cases held with
  | none =>
    refine ⟨?_, ?_, ?_⟩
    · rintro c ⟨⟩
    · rintro m ⟨⟩
      exact Set.mem_insert _ _
    · rintro m - c hc -
      exact .inr (h c (.inl hc))
  | some ev =>
    obtain ⟨hs, hle⟩ := h
    cases ev with
    | clear c =>
      refine ⟨hs.clear, ?_, ?_⟩
      · rintro m ⟨⟩
        exact Set.mem_insert _ _
      · rintro m - c' hc' -
        exact .inl ⟨c, rfl, hle c' (.inl hc')⟩
    | mark m₀ | clearThenMark c₀ m₀ =>
      refine ⟨hs.clear, ?_, ?_⟩
      · rintro m ⟨⟩
        exact Set.mem_insert _ _
      · rintro m - c hc -
        have hne : c ≠ m₀ := fun hcm => hd c hc (hcm ▸ hs.mark m₀ rfl)
        exact hs.covers m₀ rfl c hc (lt_of_le_of_ne (hle c (.inl hc)) hne)

theorem Consistent.deliver (h : Consistent C M DC DM localClear v)
    (hd : ∀ e ∈ C, e ∉ M) (hsh : Shipped C M v ev) :
    Consistent C M ({e | e ∈ ev.planes.clear} ∪ DC) ({e | e ∈ ev.planes.mark} ∪ DM) localClear
      (v.deliver lead now ev.planes) := by
  have hs : ∀ e (S : Set EvidenceEpoch), {e' | e' ∈ some e} ∪ S = insert e S := by
    intro e S
    ext e'
    simp
  have hn : ∀ S : Set EvidenceEpoch, {e' | e' ∈ none} ∪ S = S := by
    intro S
    ext e'
    simp
  obtain ⟨hcl, hm, hcv⟩ := hsh
  cases ev with
  | clear c =>
    simp only [CellEvidence.planes] at hcl ⊢
    rw [hs, hn]
    exact h.clear (hcl c rfl)
  | mark m =>
    simp only [CellEvidence.planes] at hm hcv ⊢
    rw [hs, hn]
    refine h.mark (hm m rfl) hd fun c hc hlt => ?_
    obtain ⟨c', hc', -⟩ | hc := hcv m rfl c hc hlt
    · cases hc'
    · exact hc
  | clearThenMark c m =>
    simp only [CellEvidence.planes] at hcl hm hcv ⊢
    rw [hs, hs]
    have hcle := h.clear (hcl c rfl)
    refine hcle.mark (hm m rfl) hd fun c' hc' hlt => ?_
    obtain ⟨c'', hc'', hle⟩ | hc' := hcv m rfl c' hc' hlt
    · obtain rfl : c = c'' := Option.some.inj hc''
      exact (hcle.covers c (.inl (Set.mem_insert _ _))).le hle
    · exact hc'.clear c

end Consistent

inductive Polarity where
  | clear
  | mark
  deriving DecidableEq, Repr

structure CellEvent where
  cell : Cell
  polarity : Polarity
  epoch : EvidenceEpoch
  deriving DecidableEq

structure Scheduler where
  ice : IceBackoff
  rungs : Cell → List EvidenceEpoch := fun _ => []

namespace Scheduler

def accepts (s : Scheduler) (x : Cell × EvidenceEpoch) : Bool :=
  s.ice.memberGate x.1 && epochGate (s.ice.lastApplied.lookup x.1) (some x.2) = .apply x.2

def applyClear (s : Scheduler) (x : Cell × EvidenceEpoch) : Scheduler where
  ice := s.ice.applyClearEvent x.1 (some x.2)
  rungs := if s.accepts x then Function.update s.rungs x.1 [] else s.rungs

def applyMark (now : Cell → Nat) (s : Scheduler) (x : Cell × EvidenceEpoch) : Scheduler where
  ice := s.ice.applyMarkEvent (now x.1) x.1 (some x.2)
  rungs := if s.accepts x then Function.update s.rungs x.1 (s.rungs x.1 ++ [x.2]) else s.rungs

def applyRequest (s : Scheduler) (now : Cell → Nat) (r : EvidenceRequest) : Scheduler :=
  r.marks.foldl (applyMark now) (r.clears.foldl applyClear s)

def localClear (s : Scheduler) (cell : Cell) : Scheduler where
  ice := s.ice.clear cell
  rungs := Function.update s.rungs cell []

def view (s : Scheduler) (cell : Cell) : CellView where
  entry := s.ice.cells.lookup cell
  applied := s.ice.lastApplied.lookup cell
  rung := s.rungs cell

end Scheduler

inductive EvidenceOp where
  | clear (cell : Cell) (now : UInt64)
  | mark (cell : Cell) (now : UInt64)
  | request
  | deliver (k : Nat) (now : Cell → Nat)
  /-- The buffer's own request is applied and answered, and the buffer drained. -/
  | ack (now : Cell → Nat)
  | localClear (cell : Cell)

structure Exchange where
  scheduler : Scheduler
  pending : PendingSchedulerEvidence := {}
  requests : List EvidenceRequest := []
  minted : List CellEvent := []
  delivered : List EvidenceRequest := []

namespace Exchange

def deliver (st : Exchange) (now : Cell → Nat) (r : EvidenceRequest) : Exchange :=
  { st with scheduler := st.scheduler.applyRequest now r, delivered := st.delivered ++ [r] }

/-- `none` is a failed assertion in the buffer. -/
def step (st : Exchange) : EvidenceOp → Option Exchange
  | .clear cell now =>
    let (pending, epoch) := st.pending.bufferClearEvent now cell
    some { st with pending := pending, minted := st.minted ++ [⟨cell, .clear, epoch⟩] }
  | .mark cell now => do
    let (pending, epoch) ← st.pending.bufferMarkEvent now cell
    some { st with pending := pending, minted := st.minted ++ [⟨cell, .mark, epoch⟩] }
  | .request => some { st with requests := st.requests ++ [st.pending.request] }
  | .deliver k now =>
    match st.requests[k]? with
    | some r => some (st.deliver now r)
    | none => some st
  | .ack now =>
    let st := { st with requests := st.requests ++ [st.pending.request] }
    some { st.deliver now st.pending.request with pending := st.pending.drainDelivered }
  | .localClear cell => some { st with scheduler := st.scheduler.localClear cell }

def run (maxLeadTime : Nat) (members : Option (Finset String)) (ops : List EvidenceOp) :
    Option Exchange :=
  ops.foldlM step { scheduler := { ice := { maxLeadTime := maxLeadTime, members := members } } }

def mintedOf (st : Exchange) (polarity : Polarity) (cell : Cell) : Set EvidenceEpoch :=
  {e | ⟨cell, polarity, e⟩ ∈ st.minted}

def deliveredOf (st : Exchange) : Polarity → Cell → Set EvidenceEpoch
  | .clear, cell => {e | ∃ r ∈ st.delivered, (cell, e) ∈ r.clears}
  | .mark, cell => {e | ∃ r ∈ st.delivered, (cell, e) ∈ r.marks}

end Exchange

namespace Scheduler

variable {s : Scheduler} {now : Cell → Nat} {x : Cell × EvidenceEpoch} {r : EvidenceRequest}
  {lead : Nat}

def Configured (members : Option (Finset String)) (lead : Nat) (s : Scheduler) : Prop :=
  s.ice.members = members ∧ s.ice.maxLeadTime = lead

def isMember (members : Option (Finset String)) (cell : Cell) : Bool :=
  IceBackoff.memberGate { maxLeadTime := 0, members := members } cell

theorem Configured.memberGate (h : Configured members lead s) :
    s.ice.memberGate cell = isMember members cell := by
  rw [isMember, IceBackoff.memberGate, IceBackoff.memberGate, h.1]

theorem epochGate_view : epochGate (s.ice.lastApplied.lookup x.1) (some x.2) =
    if (s.view x.1).Covers x.2 then .noOp else .apply x.2 :=
  CellView.epochGate_some (v := s.view x.1)

theorem accepts_iff : s.accepts x ↔ s.ice.memberGate x.1 ∧ ¬(s.view x.1).Covers x.2 := by
  rw [accepts, epochGate_view]
  by_cases hc : (s.view x.1).Covers x.2
  all_goals simp [hc]

theorem applyClear_of_accepts (h : s.accepts x) : s.applyClear x =
    { ice := { s.ice.clear x.1 with lastApplied := s.ice.lastApplied.insert x.1 x.2 }
      rungs := Function.update s.rungs x.1 [] } := by
  obtain ⟨hm, hn⟩ := accepts_iff.mp h
  rw [applyClear, if_pos h, IceBackoff.applyClearEvent, if_pos hm, epochGate_view, if_neg hn]

theorem applyMark_of_accepts (h : s.accepts x) : s.applyMark now x =
    { ice := { s.ice.mark (now x.1) x.1 with lastApplied := s.ice.lastApplied.insert x.1 x.2 }
      rungs := Function.update s.rungs x.1 (s.rungs x.1 ++ [x.2]) } := by
  obtain ⟨hm, hn⟩ := accepts_iff.mp h
  rw [applyMark, if_pos h, IceBackoff.applyMarkEvent, if_pos hm, epochGate_view, if_neg hn]

theorem eq_self_of_not_accepts (h : ¬s.accepts x) :
    s.applyClear x = s ∧ ∀ now, s.applyMark now x = s := by
  have hi : s.ice.applyClearEvent x.1 (some x.2) = s.ice ∧
      ∀ now, s.ice.applyMarkEvent now x.1 (some x.2) = s.ice := by
    rw [accepts_iff, not_and, not_not] at h
    unfold IceBackoff.applyClearEvent IceBackoff.applyMarkEvent
    by_cases hm : s.ice.memberGate x.1
    · simp [hm, epochGate_view, h hm]
    · simp [hm]
  simp [applyClear, applyMark, h, hi]

section

variable (h : Configured members lead s)
include h

theorem Configured.applyClear : Configured members lead (s.applyClear x) := by
  by_cases ha : s.accepts x
  · rw [applyClear_of_accepts ha]
    exact h
  · rwa [(eq_self_of_not_accepts ha).1]

theorem Configured.applyMark : Configured members lead (s.applyMark now x) := by
  by_cases ha : s.accepts x
  · rw [applyMark_of_accepts ha]
    exact h
  · rwa [(eq_self_of_not_accepts ha).2]

theorem Configured.applyRequest (r : EvidenceRequest) :
    Configured members lead (s.applyRequest now r) :=
  foldlRecOn _ _ (foldlRecOn _ _ h fun _ hs _ _ => hs.applyClear)
    fun _ hs _ _ => hs.applyMark

section

variable (hcell : isMember members cell)
include hcell

theorem view_applyClear :
    (s.applyClear x).view cell = if x.1 = cell then (s.view cell).clear x.2 else s.view cell := by
  by_cases ha : s.accepts x
  · rw [applyClear_of_accepts ha]
    by_cases hx : x.1 = cell
    · subst hx
      rw [CellView.clear, if_neg (accepts_iff.mp ha).2]
      simp [view, IceBackoff.clear]
    · rw [if_neg hx]
      simp [view, IceBackoff.clear, Ne.symm hx]
  · rw [(eq_self_of_not_accepts ha).1]
    by_cases hx : x.1 = cell
    · subst hx
      rw [accepts_iff, not_and, not_not, h.memberGate] at ha
      rw [if_pos rfl, CellView.clear, if_pos (ha hcell)]
    · rw [if_neg hx]

theorem view_applyMark : (s.applyMark now x).view cell =
    if x.1 = cell then (s.view cell).mark lead (now cell) x.2 else s.view cell := by
  by_cases ha : s.accepts x
  · rw [applyMark_of_accepts ha]
    by_cases hx : x.1 = cell
    · subst hx
      rw [CellView.mark, if_neg (accepts_iff.mp ha).2]
      simp [view, IceBackoff.mark, h.2]
    · rw [if_neg hx]
      simp [view, IceBackoff.mark, Ne.symm hx]
  · rw [(eq_self_of_not_accepts ha).2]
    by_cases hx : x.1 = cell
    · subst hx
      rw [accepts_iff, not_and, not_not, h.memberGate] at ha
      rw [if_pos rfl, CellView.mark, if_pos (ha hcell)]
    · rw [if_neg hx]

theorem view_applyRequest (b : PendingSchedulerEvidence) :
    (s.applyRequest now b.request).view cell = (b.cells.lookup cell).elim (s.view cell)
        fun ev => (s.view cell).deliver lead (now cell) ev.planes := by
  obtain ⟨hc, hcl⟩ := Map.foldl_key
    (fun s : Scheduler => s.view cell) (fun _ _ hs => ⟨hs.applyClear, view_applyClear hs hcell⟩)
    b.request.clears h
  obtain ⟨-, hm⟩ := Map.foldl_key
    (f := CellView.mark lead (now cell)) (fun s : Scheduler => s.view cell)
    (fun _ _ hs => ⟨hs.applyMark, view_applyMark hs hcell⟩) b.request.marks hc
  refine hm.trans ?_
  rw [hcl, PendingSchedulerEvidence.request]
  simp only [PendingSchedulerEvidence.cellEvents]
  rw [Map.filter_filterMap_rows b.cells (fun ev => ev.planes.clear),
    Map.filter_filterMap_rows b.cells (fun ev => ev.planes.mark)]
  cases b.cells.lookup cell with
  | none => rfl
  | some ev => cases ev <;> rfl

end

end

theorem applyRequest_eq_self (hc : ∀ x ∈ r.clears, s.ice.memberGate x.1 → (s.view x.1).Covers x.2)
    (hm : ∀ x ∈ r.marks, s.ice.memberGate x.1 → (s.view x.1).Covers x.2) :
    s.applyRequest now r = s := by
  have hf : ∀ f (l : List (Cell × EvidenceEpoch)), (∀ x ∈ l, f s x = s) → l.foldl f s = s :=
    fun _ _ hl => foldlRecOn (motive := (· = s)) _ _ rfl fun _ hs x hx => hs ▸ hl x hx
  rw [applyRequest, hf applyClear r.clears, hf (applyMark now) r.marks]
  · exact fun x hx => (eq_self_of_not_accepts fun ha =>
      (accepts_iff.mp ha).2 (hm x hx (accepts_iff.mp ha).1)).2 now
  · exact fun x hx => (eq_self_of_not_accepts fun ha =>
      (accepts_iff.mp ha).2 (hc x hx (accepts_iff.mp ha).1)).1

theorem ice_applyRequest : (s.applyRequest now r).ice = s.ice.applyRequest now r := by
  have hc : (r.clears.foldl applyClear s).ice =
      r.clears.foldl (fun ice x => ice.applyClearEvent x.1 (some x.2)) s.ice :=
    (foldl_hom ice fun _ _ => rfl).symm
  rw [IceBackoff.applyRequest, ← hc]
  exact (foldl_hom ice fun _ _ => rfl).symm

end Scheduler

end RioBuild.Capacity
