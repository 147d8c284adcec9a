import EventArchive.Data.Distinct
import EventArchive.Data.Heap
import EventArchive.Query.Scan

/-!
# Merging scans

The hits of several scans are delivered newest first; of two with the same time, the one with the
smaller identifier, and then the one of the earlier scan. Only the next hit of each scan takes part
in the comparison, a scan is not sorted again. A record that several scans find is delivered once.

`Merge.run` says so of whole scans. `Merge.loop` receives them hit by hit: the hits that are next wait
in a heap, and when one of them is taken, the next one of its scan is received, whether the first is
delivered or is a record that has been before. Once as many are delivered as asked for, no scan is
read any further.
-/
namespace EventArchive

namespace Hit

/-- Whether a hit is delivered before another one of a different scan. -/
def precedes (a b : Hit) : Bool :=
  b.createdAt < a.createdAt ||
    (a.createdAt == b.createdAt && compare a.record.id b.record.id == .lt)

end Hit

/-- How a merge ended. -/
inductive MergeEnd where
  /-- Every scan is at its end. -/
  | exhausted
  /-- As many records as asked for were delivered. -/
  | limit
  deriving DecidableEq, Repr

namespace Merge

/-- Take the hit that is delivered next. -/
def pop : List (List Hit) → Option (Hit × List (List Hit))
  | [] => none
  | [] :: rest => (pop rest).map fun p => (p.1, [] :: p.2)
  | (h :: hs) :: rest =>
    match pop rest with
    | none => some (h, hs :: rest)
    | some (h', rest') =>
      if h'.precedes h then some (h', (h :: hs) :: rest') else some (h, hs :: rest)

/-- The hits of all scans in the order in which they are taken. The fuel bounds their number. -/
def interleave : (fuel : Nat) → List (List Hit) → List Hit
  | 0, _ => []
  | fuel + 1, scans =>
    match pop scans with
    | none => []
    | some (h, scans) => h :: interleave fuel scans

/-- The hits of all scans, each record once. -/
def all (scans : List (List Hit)) : List Hit :=
  distinctBy Hit.serial [] (interleave scans.flatten.length scans)

/-- At most `limit` hits of all scans, and how the merge ended. -/
def run (limit : Nat) (scans : List (List Hit)) : List Hit × MergeEnd :=
  let delivered := (all scans).take limit
  (delivered, if delivered.length < limit then .exhausted else .limit)

/-! ### The loop -/

/-- A hit that has been received, and the scan that it comes from. -/
structure Head where
  hit : Hit
  scan : Nat

/-- Whether a hit is taken before another one: in the order of delivery, then of the scans. -/
def Head.precedes (a b : Head) : Bool :=
  a.hit.precedes b.hit || (!b.hit.precedes a.hit && a.scan < b.scan)

/-- A merge under way. -/
structure Loop where
  /-- The hits that have been received and not been taken. -/
  heads : Heap Head
  /-- What each scan has still to send. -/
  unread : List (List Hit)
  /-- The records that have been taken. -/
  seen : List Serial
  /-- What has been delivered, the latest first. -/
  delivered : List Hit

namespace Loop

/-- Receive the next hit of a scan, unless it is at its end. -/
def receive (m : Loop) (scan : Nat) : Loop :=
  match m.unread[scan]? with
  | some (hit :: hits) =>
    { m with
      heads := m.heads.push Head.precedes ⟨hit, scan⟩
      unread := m.unread.set scan hits }
  | _ => m

/-- A merge that has received the first hit of every scan. -/
def start (scans : List (List Hit)) : Loop :=
  (List.range scans.length).foldl receive ⟨.empty, scans, [], []⟩

/-- Take hits until none is left or enough are delivered, and say what was delivered and how the
merge ended. The fuel bounds the number of hits that are taken. -/
def steps (limit : Nat) : (fuel : Nat) → Loop → Option (List Hit × MergeEnd)
  | 0, _ => none
  | fuel + 1, m =>
    match m.heads.pop? Head.precedes with
    | none => some (m.delivered.reverse, .exhausted)
    | some (head, heads) =>
      let m := { m with heads := heads }.receive head.scan
      if head.hit.serial ∈ m.seen then steps limit fuel m
      else
        let m := { m with
          seen := head.hit.serial :: m.seen
          delivered := head.hit :: m.delivered }
        if limit ≤ m.delivered.length then some (m.delivered.reverse, .limit)
        else steps limit fuel m

end Loop

/-- Merge hit by hit. -/
def loop (limit : Nat) (scans : List (List Hit)) : Option (List Hit × MergeEnd) :=
  (Loop.start scans).steps limit (scans.flatten.length + 1)

end Merge

namespace Plan

/-- The hits that a query delivers: those of its scans, merged and cut to the limit. -/
def hits (p : Plan) (k : Keyspace) (limit pageSize : Nat) : List Hit :=
  (Merge.run limit (p.scans.map fun s => s.hits k p.residual p.since pageSize)).1

end Plan
end EventArchive
