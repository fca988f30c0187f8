import RioBuild.Dag.Model
import RioBuild.Lib.Buckets

/-! The leader's job listing: the contact map, the incremental partition of the head window among
the members, and the handler of one poll.  Times are in nanoseconds; the score of a job and a
member is a parameter. -/

namespace RioBuild.Listing

open Lib
open Dag (Uuid DerivationStatus)

def nanosPerSec : Nat := 10 ^ 9

def listingStealHorizon : Nat := 5 * nanosPerSec
def listingMemberTtl : Nat := 60 * nanosPerSec
def listingSnapshotTtl : Nat := 1 * nanosPerSec

def listingHeadWindowFloor : Nat := 512
def listingHeadPerMember : Nat := 32
def i64Max : Nat := 2 ^ 63 - 1

def listingHeadWindow (readyMembers : Nat) : Nat :=
  max listingHeadWindowFloor (min (min readyMembers i64Max * listingHeadPerMember) i64Max)

inductive JobOrigin
  | pruned | cacheOpportunity | staleReset | reprobe
  deriving DecidableEq, Repr

structure MaterializationJobRow where
  jobId : Uuid
  drvHash : String
  tenantId : Option Uuid
  origin : JobOrigin
  deriving DecidableEq, Repr

structure JobDescriptor where
  jobId : Uuid
  drvHash : String
  tenantId : Option Uuid
  origin : JobOrigin
  deriving DecidableEq, Repr

def JobDescriptor.fromRow (row : MaterializationJobRow) : JobDescriptor :=
  { jobId := row.jobId, drvHash := row.drvHash, tenantId := row.tenantId, origin := row.origin }

abbrev Scored := Nat ×ₗ String

def Scored.member (w : Scored) : String := (ofLex w).2

section Score

variable (score : Uuid → String → Nat)

def rendezvousScore (jobId : Uuid) (member : String) : Scored := toLex (score jobId member, member)

def scoredOwner (jobId : Uuid) (members : List String) : Option Scored :=
  (members.map (rendezvousScore score jobId)).max?

def rendezvousOwner (jobId : Uuid) (members : List String) : Option String :=
  (scoredOwner score jobId members).map Scored.member

end Score

structure ListingContacts where
  contacts : Map String Nat := ∅

namespace ListingContacts

def note (member : String) (now : Nat) (c : ListingContacts) : ListingContacts × Bool :=
  ({ contacts := c.contacts.insert member now }, (c.contacts.lookup member).isNone)

def prune (now : Nat) (c : ListingContacts) : ListingContacts × List String :=
  ({ contacts := c.contacts.retain fun _ last => now - last ≤ listingMemberTtl },
    (c.contacts.rows.filter fun x => ¬now - x.2 ≤ listingMemberTtl).map Prod.fst)

def members (now : Nat) (c : ListingContacts) : List (String × Nat) :=
  c.contacts.rows.filter fun x => now - x.2 ≤ listingMemberTtl

def len (c : ListingContacts) : Nat := c.contacts.keys.card

end ListingContacts

structure BeatToken where
  creationsSeen : UInt64

structure ListingPlan where
  owners : Map Uuid Scored := ∅
  snapshot : List MaterializationJobRow := []
  lastBeat : Option Nat := none
  seenCreations : UInt64 := 0
  buckets : Map String (List Nat) := ∅
  staleOwners : Finset String := ∅
  stolen : List Nat := []

def mergeAscending : List Nat → List Nat → List Nat
  | x :: a, y :: b =>
    if x ≤ y then x :: mergeAscending a (y :: b) else y :: mergeAscending (x :: a) b
  | x :: a, [] => x :: mergeAscending a []
  | [], y :: b => y :: mergeAscending [] b
  | [], [] => []
  termination_by a b => a.length + b.length

namespace ListingPlan

def owner (plan : ListingPlan) (jobId : Uuid) : Option String :=
  (plan.owners.lookup jobId).map Scored.member

def rebuildStolen (plan : ListingPlan) : ListingPlan :=
  { plan with
    stolen := ((plan.staleOwners.sort.filterMap plan.buckets.lookup).flatten).mergeSort }

def rebuildBuckets (plan : ListingPlan) : ListingPlan :=
  rebuildStolen
    { plan with buckets := Lib.buckets (fun row => plan.owner row.jobId) plan.snapshot }

def noteMemberFresh (member : String) (plan : ListingPlan) : ListingPlan :=
  if member ∈ plan.staleOwners then
    rebuildStolen { plan with staleOwners := plan.staleOwners.erase member }
  else plan

def refreshDecision (creations : UInt64) (now : Nat) (plan : ListingPlan) : Option BeatToken :=
  let due := match plan.lastBeat with
    | none => true
    | some at_ => listingSnapshotTtl ≤ now - at_ || creations ≠ plan.seenCreations
  if due then some { creationsSeen := creations } else none

/-- Nothing is served until a query succeeds, but the attempt counts. -/
def spendFailed (token : BeatToken) (now : Nat) (plan : ListingPlan) : ListingPlan :=
  { plan with
    lastBeat := some now
    seenCreations := token.creationsSeen
    snapshot := []
    buckets := ∅
    stolen := [] }

def serve (partitionedCaller : Option String) (plan : ListingPlan) : List MaterializationJobRow :=
  match partitionedCaller with
  | none => plan.snapshot
  | some me =>
    (mergeAscending ((plan.buckets.lookup me).getD []) plan.stolen).filterMap (plan.snapshot[·]?)

section Score

variable (score : Uuid → String → Nat)

def onJoin (joiner : String) (plan : ListingPlan) : ListingPlan :=
  { plan with
    owners := plan.owners.adjust fun jobId winner =>
      let joined := rendezvousScore score jobId joiner
      if winner < joined then joined else winner }

def onLeave (leaver : String) (survivors : List String) (plan : ListingPlan) : ListingPlan :=
  if survivors = [] then { plan with owners := ∅ }
  else
    { plan with
      owners := plan.owners.adjust fun jobId winner =>
        if winner.member ≠ leaver then winner
        else (scoredOwner score jobId survivors).getD winner }

def enterWindow (members : List String) (owners : Map Uuid Scored) (jobId : Uuid) :
    Map Uuid Scored :=
  match owners.lookup jobId with
  | some _ => owners
  | none =>
    match scoredOwner score jobId members with
    | some winner => owners.insert jobId winner
    | none => owners

def reconcileWindow (window : List Uuid) (members : List String) (plan : ListingPlan) :
    ListingPlan :=
  { plan with
    owners := (window.foldl (enterWindow score members) plan.owners).retain
      fun jobId _ => jobId ∈ window }

def reseedIfUnseeded (members : List String) (plan : ListingPlan) : ListingPlan :=
  if plan.owners = ∅ ∧ plan.snapshot ≠ [] then
    reconcileWindow score (plan.snapshot.map (·.jobId)) members plan
  else plan

def spendInstall (token : BeatToken) (rows : List MaterializationJobRow)
    (members : List (String × Nat)) (now : Nat) (plan : ListingPlan) : ListingPlan :=
  let plan := { plan with
    lastBeat := some now
    seenCreations := token.creationsSeen
    snapshot := rows }
  let plan := reconcileWindow score (rows.map (·.jobId)) (members.map Prod.fst) plan
  rebuildBuckets
    { plan with
      staleOwners :=
        ((members.filter fun x => listingStealHorizon < now - x.2).map Prod.fst).toFinset }

end Score

end ListingPlan

structure Hydrated where
  contacts : ListingContacts := {}
  plan : ListingPlan := {}

/-- One call, with what it meets: the live view and the graph, the clock, and the answer of the
head-window query, if there is one. -/
structure Poll where
  limit : UInt32
  caller : Option String
  creations : UInt64
  claimableNow : String → Bool
  status : String → Option DerivationStatus
  fetch : Nat → Option (List MaterializationJobRow)
  armed : Nat
  rearmed : Nat
  spent : Nat

section Score

variable (score : Uuid → String → Nat)

def recordCaller (me : String) (now : Nat) (h : Hydrated) : Hydrated :=
  let (contacts, joined) := h.contacts.note me now
  let plan :=
    if joined then
      ((h.plan.onJoin score me).reseedIfUnseeded score
        ((contacts.members now).map Prod.fst)).rebuildBuckets
    else h.plan
  { contacts, plan := plan.noteMemberFresh me }

def install (token : BeatToken) (caller : Option String) (rows : List MaterializationJobRow)
    (rearmed spent : Nat) (h : Hydrated) : Hydrated :=
  let contacts := match caller with
    | some me => (h.contacts.note me rearmed).1
    | none => h.contacts
  let (contacts, leavers) := contacts.prune rearmed
  let members := contacts.members rearmed
  let plan := leavers.foldl
    (fun plan leaver => plan.onLeave score leaver (members.map Prod.fst)) h.plan
  { contacts, plan := plan.spendInstall score token rows members spent }

def contact (p : Poll) (h : Hydrated) : Hydrated :=
  match p.caller with
  | some me => recordCaller score me p.armed h
  | none => h

def beat (p : Poll) (h : Hydrated) : Hydrated × Bool :=
  match h.plan.refreshDecision p.creations p.armed with
  | none => (h, false)
  | some token =>
    match p.fetch (listingHeadWindow h.contacts.len) with
    | some rows => (install score token p.caller rows p.rearmed p.spent h, false)
    | none => ({ h with plan := h.plan.spendFailed token p.spent }, true)

def offered (caller : Option String) (h : Hydrated) : List MaterializationJobRow :=
  h.plan.serve (caller.filter fun _ => 1 < h.contacts.len)

def Poll.admits (p : Poll) (row : MaterializationJobRow) : Bool :=
  p.claimableNow row.drvHash && !(p.status row.drvHash).any DerivationStatus.isTerminal

def handleListMaterializationJobs (h : Hydrated) (p : Poll) : Hydrated × List JobDescriptor :=
  let limit := min p.limit.toNat 256
  if limit = 0 then (h, [])
  else
    match beat score p (contact score p h) with
    | (h, true) => (h, [])
    | (h, false) =>
      (h, (((offered p.caller h).filter p.admits).take limit).map JobDescriptor.fromRow)

def run (polls : List Poll) : Hydrated :=
  polls.foldl (fun h p => (handleListMaterializationJobs score h p).1) {}

end Score

end RioBuild.Listing
