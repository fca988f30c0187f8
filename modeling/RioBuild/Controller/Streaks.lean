import RioBuild.Lib.Maps
import RioBuild.Lib.Word

/-! The controller's evidence for a pool and an intent: streaks of exhausted candidates, and records
of the deaths that gave no verdict.  Times are in nanoseconds. -/

namespace RioBuild.Controller

open Lib

def nanosPerSec : Nat := 10 ^ 9

def noEligibleSourcePersistTicks : UInt32 := 3
def noEligibleSourcePersistFloorSecs : Nat := 20
def poolStreakOrphanExpirySecs : Nat := 120
def jobRequeueSecs : Nat := 10
def respawnBackoffCapSecs : Nat := 1280
def respawnGiveUpDeaths : UInt32 := 8
def cancelCloseSkewSlackSecs : UInt64 := 10

/-- `now.saturating_duration_since(earlier).as_secs()`. -/
def secsSince (now earlier : Nat) : Nat := (now - earlier) / nanosPerSec

structure PoolKey where
  text : String
  deriving DecidableEq, Repr

def PoolKey.new (space name : String) : PoolKey := ⟨space ++ "/" ++ name⟩

inductive DemandCoverage
  | complete | incomplete
  deriving DecidableEq, Repr

structure Observation where
  gated : Finset String
  spawnable : Finset String
  deriving DecidableEq

def Observation.evaluated (obs : Observation) (id : String) : Bool :=
  id ∈ obs.gated || id ∈ obs.spawnable

structure StreakEntry where
  streak : UInt32
  firstGated : Nat
  touched : Nat
  deriving DecidableEq, Repr

structure RespawnEntry where
  deaths : UInt32
  lastDeath : Nat
  demandCycle : Option UInt64
  touched : Nat
  deriving DecidableEq, Repr

inductive SpawnResolution
  | terminalReport | noEligibleSource | established
  | closedBuild (closedAgeSecs : UInt64)
  deriving DecidableEq, Repr

structure DeathNote where
  deaths : UInt32
  gaveUpEdge : Bool
  deriving DecidableEq, Repr

structure GaveUpReset where
  deaths : UInt32
  latchedCycle : UInt64
  freshCycle : UInt64
  deriving DecidableEq, Repr

/-- The shift is at most 32, so that nothing overflows. -/
def respawnBackoff (deaths : UInt32) : Nat :=
  min (jobRequeueSecs * 2 ^ min (U32.saturatingSub deaths 1).toNat 32) respawnBackoffCapSecs *
    nanosPerSec

def RespawnEntry.blocksRespawn (r : RespawnEntry) (now : Nat) : Bool :=
  respawnGiveUpDeaths ≤ r.deaths || now - r.lastDeath < respawnBackoff r.deaths

def exhaustedStreakStep (prev : Option UInt32) : UInt32 × Bool :=
  let streak := U32.saturatingAdd (prev.getD 0) 1
  (streak, noEligibleSourcePersistTicks ≤ streak)

structure PoolStreaks where
  entries : Map (PoolKey × String) StreakEntry := ∅
  respawn : Map (PoolKey × String) RespawnEntry := ∅

namespace PoolStreaks

def stepGated (key : PoolKey) (now : Nat) (x : Map (PoolKey × String) StreakEntry × List String)
    (id : String) : Map (PoolKey × String) StreakEntry × List String :=
  let prev := x.1.lookup (key, id)
  let (streak, countOk) := exhaustedStreakStep (prev.map (·.streak))
  let firstGated := (prev.map (·.firstGated)).getD now
  (x.1.insert (key, id) { streak, firstGated, touched := now },
    if countOk && noEligibleSourcePersistFloorSecs ≤ secsSince now firstGated then x.2 ++ [id]
    else x.2)

def step (key : PoolKey) (obs : Observation) (coverage : DemandCoverage) (now : Nat)
    (s : PoolStreaks) : PoolStreaks × List String :=
  let (entries, respawn) :=
    if coverage = .incomplete then
      (s.entries.adjust fun k e => if k.1 = key then { e with touched := now } else e,
        s.respawn.adjust fun k r => if k.1 = key then { r with touched := now } else r)
    else (s.entries, s.respawn)
  let entries := entries.retain fun _ e => secsSince now e.touched < poolStreakOrphanExpirySecs
  let respawn := respawn.adjust fun k r =>
    if k.1 = key ∧ obs.evaluated k.2 then { r with touched := now } else r
  let respawn := respawn.retain fun _ r =>
    r.blocksRespawn now || secsSince now r.touched < poolStreakOrphanExpirySecs
  let entries := entries.retain fun k _ =>
    k.1 ≠ key || !(obs.evaluated k.2 && k.2 ∉ obs.gated)
  let (entries, report) := (obs.gated.sort (· ≤ ·)).foldl (stepGated key now) (entries, [])
  ({ entries, respawn }, report.mergeSort)

def noteVerdictFreeDeath (pool : PoolKey) (intent : String) (now : Nat) (s : PoolStreaks) :
    PoolStreaks × DeathNote :=
  let e := (s.respawn.lookup (pool, intent)).getD
    { deaths := 0, lastDeath := now, demandCycle := none, touched := now }
  let deaths := U32.saturatingAdd e.deaths 1
  ({ s with
      respawn := s.respawn.insert (pool, intent)
        { e with deaths, lastDeath := now, touched := now } },
    { deaths, gaveUpEdge := e.deaths < respawnGiveUpDeaths && respawnGiveUpDeaths ≤ deaths })

def noteJobAlive (pool : PoolKey) (intents : List String) (now : Nat) (s : PoolStreaks) :
    PoolStreaks :=
  { s with
    respawn := intents.foldl
      (fun rows intent => rows.modify (pool, intent) ({ · with touched := now })) s.respawn }

def noteDemandEpoch (pool : PoolKey) (intent : String) (observedCycle : UInt64)
    (s : PoolStreaks) : PoolStreaks × Option GaveUpReset :=
  match s.respawn.lookup (pool, intent) with
  | none => (s, none)
  | some e =>
    match e.demandCycle with
    | some latched =>
      if observedCycle ≠ latched ∧ respawnGiveUpDeaths ≤ e.deaths then
        ({ s with respawn := s.respawn.erase (pool, intent) },
          some { deaths := e.deaths, latchedCycle := latched, freshCycle := observedCycle })
      else if observedCycle ≠ latched then
        ({ s with
          respawn := s.respawn.insert (pool, intent)
            { e with demandCycle := some observedCycle } }, none)
      else (s, none)
    | none =>
      ({ s with
        respawn := s.respawn.insert (pool, intent)
          { e with demandCycle := some observedCycle } }, none)

/-- A closed build that is not after the last death resolves nothing. -/
def retainsRecord (what : SpawnResolution) (now : Nat) (e : RespawnEntry) : Bool :=
  match what with
  | .closedBuild closedAgeSecs =>
    now - e.lastDeath ≤
      (U64.saturatingAdd closedAgeSecs cancelCloseSkewSlackSecs).toNat * nanosPerSec
  | .terminalReport | .noEligibleSource | .established => false

def noteResolution (pool : PoolKey) (intent : String) (what : SpawnResolution) (now : Nat)
    (s : PoolStreaks) : PoolStreaks :=
  if (s.respawn.lookup (pool, intent)).any (retainsRecord what now) then s
  else { s with respawn := s.respawn.erase (pool, intent) }

end PoolStreaks

structure Pool where
  space : String
  name : String
  deriving DecidableEq, Repr

def Pool.key (p : Pool) : PoolKey := .new p.space p.name

inductive StreakOp
  | step (p : Pool) (obs : Observation) (coverage : DemandCoverage) (now : Nat)
  | death (p : Pool) (intent : String) (now : Nat)
  | alive (p : Pool) (intents : List String) (now : Nat)
  | demandEpoch (p : Pool) (intent : String) (cycle : UInt64)
  | resolution (p : Pool) (intent : String) (what : SpawnResolution) (now : Nat)

namespace StreakOp

def pool : StreakOp → Pool
  | step p .. | death p .. | alive p .. | demandEpoch p .. | resolution p .. => p

def time : StreakOp → Option Nat
  | step _ _ _ now | death _ _ now | alive _ _ now | resolution _ _ _ now => some now
  | demandEpoch .. => none

def apply (s : PoolStreaks) : StreakOp → PoolStreaks
  | step p obs coverage now => (s.step p.key obs coverage now).1
  | death p intent now => (s.noteVerdictFreeDeath p.key intent now).1
  | alive p intents now => s.noteJobAlive p.key intents now
  | demandEpoch p intent cycle => (s.noteDemandEpoch p.key intent cycle).1
  | resolution p intent what now => s.noteResolution p.key intent what now

end StreakOp

def runStreaks (ops : List StreakOp) : PoolStreaks := ops.foldl StreakOp.apply {}

end RioBuild.Controller
