import Mathlib.Data.Prod.Lex
import RioBuild.Lib.Maps
import RioBuild.Lib.Word

/-! The controller's buffer of capacity evidence (`evidence.rs`) and the scheduler's backoff behind
its epoch gate (`cost.rs`).  Times are nanoseconds. -/

namespace RioBuild.Capacity

open Lib

inductive CapacityType where
  | spot
  | onDemand
  deriving DecidableEq, Repr

instance : LinearOrder CapacityType :=
  LinearOrder.lift' (fun | .spot => 0 | .onDemand => 1 : CapacityType → Nat) fun a b => by
    cases a <;> cases b <;> simp

abbrev Cell := String ×ₗ CapacityType

instance : DecidableEq Cell := LinearOrder.toDecidableEq

/-- A `u64`. -/
abbrev EvidenceEpoch := Nat

inductive CellEvidence where
  | clear (epoch : EvidenceEpoch)
  | mark (epoch : EvidenceEpoch)
  | clearThenMark (clearEpoch markEpoch : EvidenceEpoch)
  deriving DecidableEq, Repr

structure CellPlanes where
  clear : Option EvidenceEpoch
  mark : Option EvidenceEpoch

namespace CellEvidence

/-- `clear_then_mark`; `none` is its failed assertion. -/
def ofClearThenMark (clearEpoch markEpoch : EvidenceEpoch) : Option CellEvidence :=
  if clearEpoch < markEpoch then some (clearThenMark clearEpoch markEpoch) else none

def planes : CellEvidence → CellPlanes
  | clear epoch => ⟨some epoch, none⟩
  | mark epoch => ⟨none, some epoch⟩
  | clearThenMark clearEpoch markEpoch => ⟨some clearEpoch, some markEpoch⟩

def newest : CellEvidence → EvidenceEpoch
  | clear epoch => epoch
  | mark epoch => epoch
  | clearThenMark _ markEpoch => markEpoch

end CellEvidence

structure EpochMint where
  prev : EvidenceEpoch := 0

/-- `now` is the wall clock in milliseconds, which may run backwards. -/
def EpochMint.next (mint : EpochMint) (now : UInt64) : EpochMint × EvidenceEpoch :=
  let e := max now.toNat (min (mint.prev + 1) (2 ^ 64 - 1))
  (⟨e⟩, e)

/-- The planes of a request: `registered_cells` and `unfulfillable_cells`. -/
structure EvidenceRequest where
  clears : List (Cell × EvidenceEpoch)
  marks : List (Cell × EvidenceEpoch)

structure PendingSchedulerEvidence where
  cells : Map Cell CellEvidence := ∅
  mint : EpochMint := {}

namespace PendingSchedulerEvidence

def bufferClearEvent (b : PendingSchedulerEvidence) (now : UInt64) (cell : Cell) :
    PendingSchedulerEvidence × EvidenceEpoch :=
  let (mint, epoch) := b.mint.next now
  ({ cells := b.cells.insert cell (.clear epoch), mint := mint }, epoch)

def bufferMarkEvent (b : PendingSchedulerEvidence) (now : UInt64) (cell : Cell) :
    Option (PendingSchedulerEvidence × EvidenceEpoch) := do
  let (mint, epoch) := b.mint.next now
  let next ← match b.cells.lookup cell with
    | none => some (.mark epoch)
    | some (.mark _) => some (.mark epoch)
    | some (.clear c) => CellEvidence.ofClearThenMark c epoch
    | some (.clearThenMark c _) => CellEvidence.ofClearThenMark c epoch
  return ({ cells := b.cells.insert cell next, mint := mint }, epoch)

def drainDelivered (b : PendingSchedulerEvidence) : PendingSchedulerEvidence :=
  { b with cells := ∅ }

def cellEvents (b : PendingSchedulerEvidence) : List (Cell × CellEvidence) := Map.rows b.cells

def request (b : PendingSchedulerEvidence) : EvidenceRequest where
  clears := b.cellEvents.filterMap fun x => x.2.planes.clear.map (x.1, ·)
  marks := b.cellEvents.filterMap fun x => x.2.planes.mark.map (x.1, ·)

end PendingSchedulerEvidence

structure IceState where
  /-- The `until` of the source. -/
  maskedUntil : Nat
  step : UInt32
  deriving DecidableEq, Repr

def iceBaseTtl : Nat := 60 * 10 ^ 9

/-- `prev` holds the step of an existing entry and whether its mask is still live. -/
def nextMarkStep : Option (UInt32 × Bool) → UInt32
  | none => 0
  | some (step, true) => step
  | some (step, false) => U32.saturatingAdd step 1

inductive EpochGate where
  | legacy
  | apply (epoch : EvidenceEpoch)
  | noOp
  deriving DecidableEq, Repr

def epochGate : Option EvidenceEpoch → Option EvidenceEpoch → EpochGate
  | _, none => .legacy
  | none, some e => .apply e
  | some a, some e => if a < e then .apply e else .noOp

structure IceBackoff where
  cells : Map Cell IceState := ∅
  lastApplied : Map Cell EvidenceEpoch := ∅
  maxLeadTime : Nat
  members : Option (Finset String) := none

namespace IceBackoff

def memberGate (ice : IceBackoff) (cell : Cell) : Bool :=
  match ice.members with
  | some m => decide ((ofLex cell).1 ∈ m)
  | none => true

def marked (maxLeadTime now : Nat) (prev : Option IceState) : IceState :=
  let step := nextMarkStep (prev.map fun s => (s.step, decide (now < s.maskedUntil)))
  let ttl := min (iceBaseTtl * min (2 ^ step.toNat) (2 ^ 32 - 1)) maxLeadTime
  ⟨now + ttl, step⟩

def mark (ice : IceBackoff) (now : Nat) (cell : Cell) : IceBackoff :=
  { ice with cells := ice.cells.insert cell (marked ice.maxLeadTime now (ice.cells.lookup cell)) }

def clear (ice : IceBackoff) (cell : Cell) : IceBackoff :=
  { ice with cells := ice.cells.erase cell }

def applyMarkEvent (ice : IceBackoff) (now : Nat) (cell : Cell) (epoch : Option EvidenceEpoch) :
    IceBackoff :=
  if ice.memberGate cell then
    match epochGate (ice.lastApplied.lookup cell) epoch with
    | .legacy => ice.mark now cell
    | .apply e => { ice.mark now cell with lastApplied := ice.lastApplied.insert cell e }
    | .noOp => ice
  else ice

def applyClearEvent (ice : IceBackoff) (cell : Cell) (epoch : Option EvidenceEpoch) : IceBackoff :=
  if ice.memberGate cell then
    match epochGate (ice.lastApplied.lookup cell) epoch with
    | .legacy => ice.clear cell
    | .apply e => { ice.clear cell with lastApplied := ice.lastApplied.insert cell e }
    | .noOp => ice
  else ice

/-- The evidence part of `handle_ack_spawned_intents`: the clears, then the marks; `now` is the
clock read at each mark. -/
def applyRequest (ice : IceBackoff) (now : Cell → Nat) (r : EvidenceRequest) : IceBackoff :=
  let ice := r.clears.foldl (fun ice (cell, e) => ice.applyClearEvent cell (some e)) ice
  r.marks.foldl (fun ice (cell, e) => ice.applyMarkEvent (now cell) cell (some e)) ice

end IceBackoff

end RioBuild.Capacity
