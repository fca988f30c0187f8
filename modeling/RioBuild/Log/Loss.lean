import RioBuild.Log.Upload

namespace RioBuild.Log

open Lib Lib.Word List UploadTask

namespace UploadTask

def unackedAboveWatermark (u : UploadTask) : Nat := u.unackedLines - u.coveredFrontPrefix

def drainInput (u : UploadTask) (batch : BuildLogBatch) : UploadTask :=
  { u with unackedLines := u.unackedLines + batch.lines.length }

end UploadTask

structure Drive where
  task : UploadTask := {}
  sent : Nat := 0
  transmitted : List BuildLogBatch := []
  rejected : Bool := false
  accepted : Nat := 0
  highest : Option Nat := none

inductive DriveEvent
  | accept (batch : BuildLogBatch)
  | transmit
  | ack (ack : AppendLogAck)
  | reconnect
  | reject

namespace Drive

/-- One arm of the `select`, or the end of a session; nothing when a frame's numbers overflow. -/
def step (s : Drive) : DriveEvent → Option Drive
  | .accept batch =>
    some { s with
      task := if s.rejected then s.task.drainInput batch else s.task.accept batch
      accepted := s.accepted + batch.lines.length }
  | .transmit => match s.task.buffer[s.sent]? with
    | none => some s
    | some batch => some { s with sent := s.sent + 1, transmitted := s.transmitted ++ [batch] }
  | .ack ack => match ack.frontier with
    | none => some s
    | some durable =>
      if s.rejected then some s
      else (s.task.dischargeThrough durable).map fun (task, popped) =>
        { s with
          task, sent := s.sent - popped
          highest := some (s.highest.elim durable (max durable)) }
  | .reconnect => some { s with sent := 0, transmitted := [] }
  | .reject =>
    if s.rejected then some s
    else some { s with
      task := s.task.rejectPermanently, sent := 0, transmitted := [], rejected := true }

def run (s : Drive) : List DriveEvent → Option Drive
  | [] => some s
  | e :: events => (s.step e).bind (run · events)

/-- Batches are contiguous and not empty; nothing is acknowledged that was not accepted. -/
def Allows (s : Drive) : DriveEvent → Prop
  | .accept batch =>
    batch.firstLineNumber = s.accepted ∧ batch.lines ≠ [] ∧ s.accepted + batch.lines.length ≤ u64Max
  | .ack ack => ∀ durable ∈ ack.frontier, durable < s.accepted
  | _ => True

def AllowsAll (s : Drive) : List DriveEvent → Prop
  | [] => True
  | e :: events => s.Allows e ∧ ∀ t, s.step e = some t → t.AllowsAll events

def watermark : Option Nat → Nat
  | none => 0
  | some durable => durable + 1

end Drive

def Lined (stop : Nat) : Nat → List BuildLogBatch → Prop
  | first, [] => first = stop
  | first, b :: rest =>
    b.firstLineNumber = first ∧ b.lines ≠ [] ∧ Lined stop (first + b.lines.length) rest

theorem Lined.sum (h : Lined stop first l) : first + (l.map (·.lines.length)).sum = stop := by
  induction l generalizing first with
  | nil => exact h
  | cons b rest ih =>
    rw [map_cons, sum_cons, ← add_assoc]
    exact ih h.2.2

theorem Lined.concat (h : Lined stop first l) (hb : b.firstLineNumber = stop)
    (hne : b.lines ≠ []) : Lined (stop + b.lines.length) first (l ++ [b]) := by
  induction l generalizing first with
  | nil => exact ⟨hb.trans h.symm, hne, congrArg (· + _) h⟩
  | cons c rest ih => exact ⟨h.1, h.2.1, ih h.2.2⟩

theorem UploadTask.popThrough_lined (h : Lined stop first l) (hs : stop ≤ u64Max)
    (durable n : Nat) :
    ∃ popped start, popThrough durable l n = some (l.drop popped, n - (start - first), popped) ∧
      first ≤ start ∧ start ≤ max first (durable + 1) ∧ Lined stop start (l.drop popped) ∧
      (∀ b ∈ (l.drop popped).head?, durable + 1 < start + b.lines.length) ∧
      ∀ b ∈ l.head?, durable + 1 < first + b.lines.length → popped = 0 := by
  induction l generalizing first n with
  | nil => exact ⟨0, first, by simp [popThrough], le_rfl, le_max_left _ _, h, by simp, by simp⟩
  | cons b rest ih =>
    obtain ⟨hb, hne, hr⟩ := h
    have hpo := length_pos_iff.mpr hne
    have hsu := hr.sum
    have hla : checkedAdd b.firstLineNumber (b.lines.length - 1) =
        some (first + b.lines.length - 1) :=
      checkedAdd_eq_some.mpr ⟨by omega, by omega⟩
    simp only [popThrough, hla]
    split_ifs with hc
    · refine ⟨0, first, by simp, le_rfl, le_max_left _ _, ⟨hb, hne, hr⟩, ?_, fun _ _ _ => rfl⟩
      rintro c ⟨⟩
      omega
    · obtain ⟨popped, start, hp, hle, hm, hl, hf, -⟩ := ih hr (n - b.lines.length)
      refine ⟨popped + 1, start, ?_, by omega, by omega, hl, hf, ?_⟩
      · have hn : n - b.lines.length - (start - (first + b.lines.length)) =
          n - (start - first) := by
          omega
        rw [hp, Option.map_some, drop_succ_cons, hn]
      · rintro c ⟨⟩ hlo
        omega

namespace Drive

theorem watermark_max (durable : Nat) (highest : Option Nat) :
    watermark (some (highest.elim durable (max durable))) =
      max (watermark highest) (durable + 1) := by
  cases highest with
  | none => simp [watermark]
  | some acked =>
    simp only [watermark, Option.elim]
    omega

/-- Before a rejection the frames reach up to the lines accepted, and the watermark is in the front
one.  Afterwards there is only the count. -/
structure Exact (s : Drive) : Prop where
  acked : s.task.lastAckedLine = s.highest
  below : watermark s.highest ≤ s.accepted
  fits : s.accepted ≤ u64Max
  buffer : s.rejected = false → ∃ first ≤ watermark s.highest,
    Lined s.accepted first s.task.buffer ∧ s.task.unackedLines = s.accepted - first ∧
    ∀ b ∈ s.task.buffer.head?, watermark s.highest < first + b.lines.length
  rejected : s.rejected = true →
    s.task.buffer = [] ∧ s.task.unackedLines = s.accepted - watermark s.highest
  sent : s.sent ≤ s.task.buffer.length
  transmitted : s.task.buffer.take s.sent ⊆ s.transmitted

namespace Exact

variable {s : Drive} (h : Exact s)
include h

theorem unackedLines (hs : s.rejected = false) :
    s.task.unackedLines = (s.task.buffer.map (·.lines.length)).sum := by
  obtain ⟨first, -, hl, hn, -⟩ := h.buffer hs
  have := hl.sum
  omega

theorem unackedAboveWatermark :
    s.task.unackedAboveWatermark = s.accepted - watermark s.highest := by
  cases hs : s.rejected with
  | true =>
    obtain ⟨hb, hn⟩ := h.rejected hs
    simp [UploadTask.unackedAboveWatermark, coveredFrontPrefix, hb, hn]
  | false =>
    obtain ⟨first, hle, hl, hn, hf⟩ := h.buffer hs
    rw [UploadTask.unackedAboveWatermark]
    cases hb : s.task.buffer with
    | nil =>
      rw [hb] at hl
      cases hl
      omega
    | cons b rest =>
      rw [hb] at hl hf
      have hla := hf b rfl
      have hc : s.task.coveredFrontPrefix = watermark s.highest - first := by
        rw [coveredFrontPrefix, hb, h.acked]
        cases hh : s.highest with
        | none => simp [watermark]
        | some acked =>
          simp only [head?_cons, hl.1, hh, watermark] at hle hla ⊢
          split_ifs <;> omega
      omega

theorem accept (ho : s.Allows (.accept batch)) :
    ∃ t, s.step (.accept batch) = some t ∧ Exact t := by
  obtain ⟨hfst, hne, hf⟩ := ho
  refine ⟨_, rfl, ?_⟩
  have hp := length_pos_iff.mpr hne
  have hbe := h.below
  cases hs : s.rejected with
  | true =>
    obtain ⟨hb, hn⟩ := h.rejected hs
    simp only [drainInput, if_true]
    exact { h with
      below := hbe.trans (Nat.le_add_right _ _)
      fits := hf
      buffer := by simp
      rejected := fun _ => ⟨hb, by dsimp only; omega⟩ }
  | false =>
    obtain ⟨first, hle, hl, hn, hfr⟩ := h.buffer hs
    have hse := h.sent
    simp only [UploadTask.accept, hne, if_false, Bool.false_eq_true]
    exact { h with
      below := hbe.trans (Nat.le_add_right _ _)
      fits := hf
      buffer := fun _ => ⟨first, hle, hl.concat hfst hne, by dsimp only; omega, by
        cases hb : s.task.buffer with
        | nil =>
          rw [hb] at hl
          cases hl
          rintro b ⟨⟩
          dsimp only
          omega
        | cons b rest => exact fun c hc => hfr c (by simpa [hb] using hc)⟩
      rejected := by simp
      sent := by
        simp only [length_append]
        omega
      transmitted := by simpa [take_append_of_le_length hse] using h.transmitted }

theorem ack (ho : s.Allows (.ack a)) : ∃ t, s.step (.ack a) = some t ∧ Exact t := by
  rw [step]
  cases ha : a.frontier with
  | none => exact ⟨s, rfl, h⟩
  | some durable =>
    dsimp only
    split_ifs with hs
    · exact ⟨s, rfl, h⟩
    · have hs : s.rejected = false := by simpa using hs
      obtain ⟨first, hle, hli, hn, hf⟩ := h.buffer hs
      obtain ⟨popped, start, hp, hge, hma, hl, hne, hsl⟩ :=
        popThrough_lined hli h.fits durable s.task.unackedLines
      have hd := ho durable ha
      have hbe := h.below
      have hse := h.sent
      have hm := watermark_max durable s.highest
      rw [dischargeThrough, hp]
      refine ⟨_, rfl, ?_⟩
      exact {
        acked := by
          rw [h.acked]
          cases s.highest with
          | none => rfl
          | some acked =>
            dsimp only
            split_ifs <;> simp only [Option.elim, Option.some.injEq] <;> omega
        below := by
          dsimp only
          omega
        fits := h.fits
        buffer := fun _ => by
          dsimp only
          rw [hm]
          refine ⟨start, by omega, hl, by omega, ?_⟩
          · intro b hb
            refine max_lt ?_ (hne b hb)
            rcases lt_or_ge (durable + 1) (watermark s.highest) with hold | hnew
            · -- a stale acknowledgement pops nothing
              cases hbu : s.task.buffer with
              | nil => simp [hbu] at hb
              | cons c rest =>
                have hc := hf c (by simp [hbu])
                obtain rfl := hsl c (by simp [hbu]) (by omega)
                simpa using (hf b hb).trans_le (by omega)
            · exact hnew.trans_lt (hne b hb)
        rejected := by simp [hs]
        sent := by
          simp only [length_drop]
          omega
        transmitted := by
          rw [← drop_take]
          exact fun b hb => h.transmitted (mem_of_mem_drop hb) }

theorem next (ho : s.Allows e) : ∃ t, s.step e = some t ∧ Exact t := by
  cases e with
  | accept batch => exact h.accept ho
  | transmit =>
    rw [step]
    cases hb : s.task.buffer[s.sent]? with
    | none => exact ⟨s, rfl, h⟩
    | some batch =>
      obtain ⟨hlt, -⟩ := List.getElem?_eq_some_iff.mp hb
      refine ⟨_, rfl, { h with sent := hlt, transmitted := fun b => ?_ }⟩
      rw [take_add_one, hb, mem_append, mem_append]
      exact Or.imp_left (h.transmitted ·)
  | ack a => exact h.ack ho
  | reconnect => exact ⟨_, rfl, { h with sent := Nat.zero_le _, transmitted := nil_subset _ }⟩
  | reject =>
    rw [step]
    split_ifs with hs
    · exact ⟨s, rfl, h⟩
    · exact ⟨_, rfl, { h with
        buffer := by simp
        rejected := fun _ => ⟨rfl, h.unackedAboveWatermark⟩
        sent := Nat.zero_le _
        transmitted := nil_subset _ }⟩

end Exact

theorem watermark_le_step {s : Drive} (h : s.step e = some t) :
    watermark s.highest ≤ watermark t.highest := by
  cases e with
  | accept | reconnect =>
    cases h
    exact le_rfl
  | transmit =>
    rw [step] at h
    split at h <;> cases h <;> exact le_rfl
  | reject =>
    rw [step] at h
    split_ifs at h <;> cases h <;> exact le_rfl
  | ack a =>
    rw [step] at h
    split at h
    · cases h
      exact le_rfl
    · split_ifs at h
      · cases h
        exact le_rfl
      · obtain ⟨_, -, rfl⟩ := Option.map_eq_some_iff.mp h
        exact (le_max_left _ _).trans_eq (watermark_max _ _).symm

theorem Exact.run {s : Drive} (h : Exact s) (ho : s.AllowsAll events) :
    ∃ t, s.run events = some t ∧ Exact t := by
  induction events generalizing s with
  | nil => exact ⟨s, rfl, h⟩
  | cons e events ih =>
    obtain ⟨t, hs, ht⟩ := h.next ho.1
    rw [Drive.run, hs]
    exact ih ht (ho.2 t hs)

/-- In every state reached the count kept is that of the frames, the count disclosed is that of
the lines above the highest acknowledgement, the frames below the index were sent in this session,
and no further event takes the acknowledged line back. -/
theorem loss_accounting_exact (events : List DriveEvent) (hok : AllowsAll {} events) :
    ∃ s : Drive, run {} events = some s ∧
      (s.rejected = false → s.task.unackedLines = (s.task.buffer.map (·.lines.length)).sum) ∧
      s.task.unackedAboveWatermark = s.accepted - watermark s.highest ∧
      s.sent ≤ s.task.buffer.length ∧ s.task.buffer.take s.sent ⊆ s.transmitted ∧
      ∀ e t, s.Allows e → s.step e = some t →
        ∀ line ∈ s.task.lastAckedLine, ∃ line' ∈ t.task.lastAckedLine, line ≤ line' := by
  have hst : Exact {} := ⟨rfl, le_rfl, Nat.zero_le _,
    fun _ => ⟨0, le_rfl, rfl, rfl, by simp⟩, by simp, le_rfl, nil_subset _⟩
  obtain ⟨s, hr, h⟩ := hst.run hok
  refine ⟨s, hr, h.unackedLines, h.unackedAboveWatermark, h.sent, h.transmitted, ?_⟩
  intro e t he hs line hl
  obtain ⟨_, hn, ht⟩ := h.next he
  cases hs.symm.trans hn
  have hle := watermark_le_step hs
  rw [h.acked] at hl
  rw [Option.mem_def.mp hl] at hle
  rw [ht.acked]
  cases hh : t.highest with
  | none => simp [hh, watermark] at hle
  | some line' => exact ⟨line', rfl, by simpa [hh, watermark] using hle⟩

theorem loss_accounting_exact_midFrame :
    ∃ s : Drive, run {} [.accept ⟨"", [[], []], 0, ""⟩, .transmit, .ack ⟨0, none⟩] = some s ∧
      s.task.unackedLines = 2 ∧ s.task.unackedAboveWatermark = 1 := by
  obtain ⟨s, hr, hk, hl, -⟩ := loss_accounting_exact
    [.accept ⟨"", [[], []], 0, ""⟩, .transmit, .ack ⟨0, none⟩]
    ⟨⟨rfl, by simp, by decide⟩, fun _ h => by
      cases h
      exact ⟨trivial, fun _ h => by
        cases h
        exact ⟨by simp [Allows, AppendLogAck.frontier], fun _ _ => trivial⟩⟩⟩
  cases hr
  exact ⟨_, rfl, hk rfl, hl⟩

end Drive

end RioBuild.Log
