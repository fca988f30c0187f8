import Mathlib
import RioBuild.Lib.Maps

/-! The controller's clustering of deadline expiries by node.  Times are in seconds, as rational
numbers; `u64` values are natural numbers with saturating sums. -/

namespace RioBuild.Wedge

open Lib

def wedgeClusterWindowSecs : ℚ := 1800
def wedgeClusterMinDistinctDrvs : Nat := 2
def wedgeDeadlineGraceSecs : Nat := 30
def wedgeVerdictDwellSecs : ℚ := 300

def u64Max : Nat := 2 ^ 64 - 1

def saturatingAdd (a b : Nat) : Nat := min (a + b) u64Max

inductive AttemptKind
  | unspecified | build | materialization
  | unrecognized (value : Int)
  deriving DecidableEq, Repr

structure OpenAttempt where
  intentId : String
  sourceNode : String
  assignedAtAgeSecs : Nat
  assignedAtEpochSecs : Nat
  deadlineSecs : Nat
  attemptKind : AttemptKind
  deriving DecidableEq, Repr

namespace OpenAttempt

def expired (a : OpenAttempt) : Bool :=
  a.deadlineSecs ≠ 0 && saturatingAdd a.deadlineSecs wedgeDeadlineGraceSecs < a.assignedAtAgeSecs

/-- The ledger's instant of expiry; without the epoch it is computed back from the age. -/
def expiryPg (now : ℚ) (a : OpenAttempt) : Nat :=
  if 0 < a.assignedAtEpochSecs then
    saturatingAdd (saturatingAdd a.assignedAtEpochSecs a.deadlineSecs) wedgeDeadlineGraceSecs
  else
    let late := a.assignedAtAgeSecs - saturatingAdd a.deadlineSecs wedgeDeadlineGraceSecs
    min ⌊max (now - late) 0⌋₊ u64Max

end OpenAttempt

inductive SuppressionAxis
  | ratio | breadth | dwell
  deriving DecidableEq, Repr

/-- The nodes past the threshold are a sorted list without repetition in the source. -/
inductive WedgeVerdict
  | nodeWedged (nodes : Finset String)
  | systemic (affected of_ breadth : Nat) (axis : SuppressionAxis)
  | unobserved
  deriving DecidableEq

structure Evidence where
  anchor : ℚ
  expiryPg : Nat
  deriving DecidableEq, Repr

def Evidence.inWindow (now : ℚ) (e : Evidence) : Bool := now - e.anchor ≤ wedgeClusterWindowSecs

structure Suppression where
  setAt : ℚ
  maxExpiryPg : Nat
  deriving DecidableEq, Repr

def Suppression.live (now : ℚ) (w : Suppression) : Bool := now - w.setAt ≤ wedgeClusterWindowSecs

structure EngagedEpisode where
  engagedAt : ℚ
  axis : SuppressionAxis
  deriving DecidableEq, Repr

abbrev Window := Map String (Map String Evidence)

structure WedgeTracker where
  evidence : Window := ∅
  marked : Finset String := ∅
  lastSuppression : Option Suppression := none
  evicted : Map String ℚ := ∅
  episode : Option EngagedEpisode := none

structure WedgePopulations where
  wedged : Finset String
  population : Nat
  breadth : Nat

def WedgePopulations.fromWindow (evidence : Window) (registered : Finset String) (now : ℚ) :
    WedgePopulations where
  wedged := evidence.keysWhere fun perNode =>
    wedgeClusterMinDistinctDrvs ≤ (perNode.keysWhere (·.inWindow now)).card
  population := (evidence.keys ∪ registered).card
  breadth := (evidence.keysWhere fun perNode => (perNode.keysWhere (·.inWindow now)).Nonempty).card

inductive Admission
  | admissible | refusedTombstoned | refusedGhost
  deriving DecidableEq, Repr

structure AdmissionAuthority where
  tombstoned : Map String ℚ
  registered : Finset String

def AdmissionAuthority.fleetAbsent (registered : Finset String) (node : String) : Bool :=
  node ∉ registered

def AdmissionAuthority.rule (authority : AdmissionAuthority) (node : String) : Admission :=
  if (authority.tombstoned.lookup node).isSome then .refusedTombstoned
  else if fleetAbsent authority.registered node then .refusedGhost
  else .admissible

/-- `entry(node).or_default().entry(drv).or_insert(e)`. -/
def Window.anchor (node drv : String) (e : Evidence) (w : Window) : Window :=
  let perNode := (w.lookup node).getD ∅
  w.insert node (if (perNode.lookup drv).isSome then perNode else perNode.insert drv e)

namespace WedgeTracker

def gated (t : WedgeTracker) (now : ℚ) (expiryPg : Nat) : Bool :=
  t.lastSuppression.any fun w => expiryPg ≤ w.maxExpiryPg && w.live now

def observeOne (t : WedgeTracker) (registered : Finset String) (now : ℚ)
    (x : Window × List String) (a : OpenAttempt) : Window × List String :=
  if a.attemptKind ≠ .build then x
  else if a.sourceNode = "" then x
  else
    match AdmissionAuthority.rule ⟨t.evicted, registered⟩ a.sourceNode with
    | .refusedTombstoned => x
    | .refusedGhost => (x.1, x.2 ++ [a.sourceNode])
    | .admissible =>
      if !a.expired then x
      else if t.gated now (a.expiryPg now) then x
      else
        (x.1.anchor a.sourceNode a.intentId { anchor := now, expiryPg := a.expiryPg now }, x.2)

def observe (openAttempts : List OpenAttempt) (registered : Finset String) (now : ℚ)
    (t : WedgeTracker) : WedgeTracker :=
  let (evidence, refusedGhosts) := openAttempts.foldl (t.observeOne registered now) (t.evidence, [])
  { t with
    evidence
    evicted := refusedGhosts.foldl
      (fun evicted node =>
        if (evicted.lookup node).isSome then evicted else evicted.insert node now)
      t.evicted }

def prune (now : ℚ) (t : WedgeTracker) : WedgeTracker :=
  { t with
    evidence := (t.evidence.adjust fun _ perNode => perNode.retain fun _ e => e.inWindow now).retain
      fun _ perNode => perNode.keys.Nonempty
    evicted := t.evicted.retain fun _ at_ => now - at_ ≤ wedgeClusterWindowSecs
    lastSuppression := t.lastSuppression.filter (·.live now) }

def evict (nodes : Finset String) (now : ℚ) (t : WedgeTracker) : WedgeTracker :=
  { t with
    evidence := t.evidence.retain fun node _ => node ∉ nodes
    marked := t.marked \ nodes
    evicted := t.evicted.stamp nodes now }

end WedgeTracker

inductive EvidenceDisposition
  | drainWindow | retain
  deriving DecidableEq, Repr

inductive WatermarkDisposition
  | mergeLatch | keep
  deriving DecidableEq, Repr

inductive MarkedDisposition
  | replaceWith (nodes : Finset String)
  | retain

structure ArmEffects where
  evidence : EvidenceDisposition
  watermark : WatermarkDisposition
  marked : MarkedDisposition
  suppressedTick : Option SuppressionAxis

def ArmEffects.sansSuppressedTick (effects : ArmEffects) : ArmEffects :=
  { effects with suppressedTick := none }

namespace SuppressionAxis

def engageTickEffects : SuppressionAxis → ArmEffects
  | .ratio => ⟨.drainWindow, .mergeLatch, .replaceWith ∅, some .ratio⟩
  | .breadth => ⟨.retain, .keep, .retain, some .breadth⟩
  | .dwell => ⟨.retain, .keep, .retain, some .dwell⟩

def releaseEffects : SuppressionAxis → ArmEffects
  | .ratio => ⟨.retain, .keep, .retain, none⟩
  | .breadth => ⟨.drainWindow, .mergeLatch, .replaceWith ∅, some .breadth⟩
  | .dwell => ⟨.retain, .keep, .retain, none⟩

end SuppressionAxis

def transitionEffects (source target : SuppressionAxis) : Option ArmEffects :=
  if source = target then none else some source.releaseEffects.sansSuppressedTick

def Window.maxExpiry (w : Window) : Nat :=
  w.keys.sup fun node => ((w.lookup node).getD ∅).keys.sup fun drv =>
    (((w.lookup node).getD ∅).lookup drv).elim 0 (·.expiryPg)

namespace WedgeTracker

def apply (effects : ArmEffects) (now : ℚ) (t : WedgeTracker) : WedgeTracker :=
  let (evidence, drainedMax) := match effects.evidence with
    | .drainWindow => (∅, t.evidence.maxExpiry)
    | .retain => (t.evidence, 0)
  let lastSuppression := match effects.watermark with
    | .mergeLatch =>
      let live := ((t.lastSuppression.filter (·.live now)).map (·.maxExpiryPg)).getD 0
      some { setAt := now, maxExpiryPg := max live drainedMax }
    | .keep => t.lastSuppression
  let marked := match effects.marked with
    | .replaceWith nodes => nodes
    | .retain => t.marked
  { t with evidence, lastSuppression, marked }

/-- The release of an episode, and its axis if the release suppresses the verdict. -/
def closeEpisode (episode : EngagedEpisode) (now : ℚ) (t : WedgeTracker) :
    WedgeTracker × Option SuppressionAxis :=
  (t.apply episode.axis.releaseEffects now, episode.axis.releaseEffects.suppressedTick)

def shared (count population : Nat) : Bool := 2 ≤ count && population < 2 * count

def engaging (populations : WedgePopulations) (now : ℚ) (t : WedgeTracker) :
    Option SuppressionAxis :=
  let dwellActive := t.lastSuppression.any fun w => now - w.setAt ≤ wedgeVerdictDwellSecs
  if shared populations.wedged.card populations.population then some .ratio
  else if shared populations.breadth populations.population then some .breadth
  else if dwellActive && populations.wedged ≠ ∅ then some .dwell
  else none

/-- An engaged tick.  A change of the axis first runs what the outgoing one owes. -/
def engage (axis : SuppressionAxis) (now : ℚ) (t : WedgeTracker) : WedgeTracker :=
  let engagedAt := (t.episode.map (·.engagedAt)).getD now
  let t := match t.episode.bind fun prior => transitionEffects prior.axis axis with
    | some effects => t.apply effects now
    | none => t
  { t with episode := some { engagedAt, axis } }.apply axis.engageTickEffects now

def release (now : ℚ) (t : WedgeTracker) : WedgeTracker × Option SuppressionAxis :=
  match t.episode with
  | some episode => { t with episode := none }.closeEpisode episode now
  | none => (t, none)

def finalize (populations : Option WedgePopulations) (now : ℚ) (t : WedgeTracker) :
    WedgeTracker × WedgeVerdict :=
  match populations with
  | none => (t, .unobserved)
  | some p =>
    match t.engaging p now with
    | some axis => (t.engage axis now, .systemic p.wedged.card p.population p.breadth axis)
    | none =>
      match t.release now with
      | (t, some axis) => (t, .systemic p.wedged.card p.population p.breadth axis)
      | (t, none) =>
        (t.apply ⟨.retain, .keep, .replaceWith p.wedged, none⟩ now, .nodeWedged p.wedged)

end WedgeTracker

structure Tick where
  view : Option (List OpenAttempt)
  reapedSinceLast : Finset String
  registered : Finset String
  now : ℚ

namespace WedgeTracker

def sweep (tick : Tick) (t : WedgeTracker) : WedgeTracker :=
  let t := t.evict tick.reapedSinceLast tick.now
  t.evict (t.evidence.keys.filter fun n => AdmissionAuthority.fleetAbsent tick.registered n)
    tick.now

def fold (tick : Tick) (openAttempts : List OpenAttempt) (t : WedgeTracker) : WedgeTracker :=
  ((t.sweep tick).observe openAttempts tick.registered tick.now).prune tick.now

def update (tick : Tick) (t : WedgeTracker) : WedgeTracker × WedgeVerdict :=
  match tick.view with
  | none => (t.sweep tick).finalize none tick.now
  | some openAttempts =>
    let t := t.fold tick openAttempts
    t.finalize (some (.fromWindow t.evidence tick.registered tick.now)) tick.now

end WedgeTracker

def state (ticks : Nat → Tick) : Nat → WedgeTracker
  | 0 => {}
  | k + 1 => ((state ticks k).update (ticks k)).1

def verdict (ticks : Nat → Tick) (k : Nat) : WedgeVerdict :=
  ((state ticks k).update (ticks k)).2

end RioBuild.Wedge
