import EventArchive.Data.Heap
import EventArchive.Filter.Basic
import EventArchive.Query.Feed

/-!
# Merging two tiers

A query of a tiered archive merges the streams of its tiers, newest first and then by identifier,
and delivers each identifier once. A demoted record of the local tier takes no part in the merge. A
lookup asks the secondary tier for it, and the event that comes back is merged in its place. While
the newest record that is being looked up comes before everything that is ready, the merge waits for
a lookup to complete.

Which lookup completes next is not decided here: `order` says it for every time the merge waits, by
a position among those that are under way.
-/
namespace EventArchive

/-- The place of a record in the merge. -/
structure Rank where
  createdAt : Int64
  id : EventId
  deriving DecidableEq

namespace Rank

/-- The place of a record. -/
def of (r : Record) : Rank := ⟨r.createdAt, r.id⟩

/-- Newest first, then the smaller identifier. -/
def precedes (a b : Rank) : Bool :=
  b.createdAt < a.createdAt || (a.createdAt == b.createdAt && compare a.id b.id == .lt)

end Rank

/-- Where a record that is ready came from. -/
inductive Origin where
  | primary
  | secondary
  | lookup
  deriving DecidableEq, Repr

/-- A record that is ready to be delivered. -/
structure Candidate where
  origin : Origin
  record : Record
  deriving DecidableEq

/-- Whether a candidate is delivered before another one. -/
def Candidate.precedes (a b : Candidate) : Bool := (Rank.of a.record).precedes (Rank.of b.record)

/-- What a lookup brings. -/
inductive Lookup where
  | found (event : Event)
  /-- The secondary tier does not have the whole event. -/
  | absent
  | failed
  deriving DecidableEq

/-- A merge of two tiers under way. -/
structure TierMerge where
  /-- What the local tier has still to send. -/
  primary : List Record
  /-- What the secondary tier has still to send. -/
  secondary : List Record
  ready : Heap Candidate
  /-- The records that are being looked up, each once, in the order in which that began. -/
  pending : List Rank
  /-- The lookups that have completed, the latest first. -/
  completed : List Rank
  failed : Nat
  /-- The events that lookups brought, in the order in which they came. -/
  fetched : List Event
  /-- What has been delivered, the latest first. -/
  delivered : List Record

namespace TierMerge

/-- A merge of which nothing has been read. -/
def start (primary secondary : List Record) : TierMerge :=
  ⟨primary, secondary, .empty, [], [], 0, [], []⟩

/-- Make a record ready. -/
def offer (m : TierMerge) (c : Candidate) : TierMerge :=
  { m with ready := m.ready.push Candidate.precedes c }

/-- Begin a lookup, unless the same one is under way. -/
def launch (pending : List Rank) (r : Rank) : List Rank :=
  if r ∈ pending then pending else pending ++ [r]

/-- Read the local tier up to its next whole record; the demoted ones on the way are looked up. -/
def pullPrimary (m : TierMerge) : TierMerge :=
  let demoted := m.primary.takeWhile Record.isStub
  let m := { m with pending := (demoted.map Rank.of).foldl launch m.pending }
  match m.primary.dropWhile Record.isStub with
  | [] => { m with primary := [] }
  | r :: rest => { m with primary := rest }.offer ⟨.primary, r⟩

/-- Read the next record of the secondary tier. -/
def pullSecondary (m : TierMerge) : TierMerge :=
  match m.secondary with
  | [] => m
  | r :: rest => { m with secondary := rest }.offer ⟨.secondary, r⟩

/-- Read on where a record came from. -/
def pull (m : TierMerge) : Origin → TierMerge
  | .primary => m.pullPrimary
  | .secondary => m.pullSecondary
  | .lookup => m

/-- The newest record that is being looked up. -/
def newestPending? (m : TierMerge) : Option Rank :=
  m.pending.foldl (fun best r => if best.any (·.precedes r) then best else some r) none

/-- Whether a record that is being looked up comes before everything that is ready. -/
def isWaiting (m : TierMerge) : Bool :=
  m.newestPending?.any fun r => m.ready.top?.all fun c => r.precedes (Rank.of c.record)

/-- Complete a lookup. An event that does not satisfy the filter is not delivered. -/
def complete (m : TierMerge) (f : Filter) (lookup : EventId → Lookup) (r : Rank) : TierMerge :=
  let m := { m with pending := m.pending.erase r, completed := r :: m.completed }
  match lookup r.id with
  | .found e =>
    let m := { m with fetched := m.fetched ++ [e] }
    if f.isMatch e then m.offer ⟨.lookup, .full e⟩ else m
  | .absent => m
  | .failed => { m with failed := m.failed + 1 }

/-- Deliver a record, unless one of its identifier has been delivered. -/
def deliver (m : TierMerge) (r : Record) : TierMerge :=
  if m.delivered.any (·.id == r.id) then m else { m with delivered := r :: m.delivered }

/-- One step: wait for a lookup, or take the next record that is ready and read on where it came
from. There is none when nothing is ready and nothing is being looked up. -/
def step? (f : Filter) (lookup : EventId → Lookup) (order : Nat → Nat) (m : TierMerge) :
    Option TierMerge :=
  if m.isWaiting then
    (m.pending[order m.completed.length % m.pending.length]?).map (m.complete f lookup)
  else
    (m.ready.pop? Candidate.precedes).map fun c =>
      ({ m with ready := c.2 }.pull c.1.origin).deliver c.1.record

/-- Steps until the merge is at its end or has delivered enough. The fuel bounds their number. -/
def steps (f : Filter) (lookup : EventId → Lookup) (order : Nat → Nat) (limit : Nat) :
    (fuel : Nat) → TierMerge → TierMerge
  | 0, m => m
  | fuel + 1, m =>
    if limit ≤ m.delivered.length then m
    else match m.step? f lookup order with
      | none => m
      | some m => steps f lookup order limit fuel m

/-- A bound on the number of steps that are left. A step completes a lookup, which makes at most one
record ready, or takes a record that is ready; a record of the local tier may have to be looked up
first. -/
def work (m : TierMerge) : Nat :=
  2 * m.primary.length + m.secondary.length + 2 * m.pending.length + m.ready.size

/-- Merge two tiers until `limit` records have been delivered or both are at their end. -/
def run (f : Filter) (lookup : EventId → Lookup) (order : Nat → Nat) (limit : Nat)
    (primary secondary : List Record) : TierMerge :=
  let m := ((start primary secondary).pull .primary).pull .secondary
  steps f lookup order limit (m.work + 1) m

/-- Lookups complete in the order in which they began. -/
def firstBegun : Nat → Nat := fun _ => 0

/-- The records that have been delivered, in their order. -/
def records (m : TierMerge) : List Record := m.delivered.reverse

end TierMerge

/-- The outcome of a merge that was not stopped from outside, from those of the two streams. A
stream that was cut off because the limit had been reached counts as complete. -/
def mergedOutcome (outcomes : List QueryOutcome) (limitReached : Bool) (failedLookups : Nat) :
    QueryOutcome :=
  let failed := outcomes.foldl (fun n o => match o with
    | .incomplete k => n + k
    | _ => n) failedLookups
  if 0 < failed then .incomplete failed
  else if .aborted ∈ outcomes then .aborted
  else if .cancelled ∈ outcomes ∧ ¬ limitReached then .cancelled
  else .complete

end EventArchive
