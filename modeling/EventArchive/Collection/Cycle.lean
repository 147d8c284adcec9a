import EventArchive.Collection.IndexTier

/-!
# A collection cycle

First the records are counted, marked and swept, then the indices of what is demoted by then.
-/
namespace EventArchive

/-- What a cycle measured and changed. -/
structure CollectionReport where
  /-- Bytes of whole records before the cycle. -/
  liveBytes : Nat
  liveRecords : Nat
  demotedRecords : Nat
  /-- Victims of the event tier. -/
  marked : Nat
  demoted : Nat
  deleted : Nat
  /-- Bytes of index keys of demoted records before their sweep. -/
  indexBytes : Nat
  /-- Victims of the index tier. -/
  indexSerialsPruned : Nat
  /-- Keys that the index sweep removed. -/
  indexEntriesRemoved : Nat
  deriving DecidableEq, Repr

namespace CollectionReport

/-- Whether the cycle removed or demoted anything. -/
def changed (r : CollectionReport) : Bool := 0 < r.demoted + r.deleted + r.indexEntriesRemoved

/-- The numbers of a report with their names. -/
def measures (r : CollectionReport) : List (String × Nat) :=
  [("live_bytes", r.liveBytes), ("live_records", r.liveRecords),
    ("demoted_records", r.demotedRecords), ("marked", r.marked), ("demoted", r.demoted),
    ("deleted", r.deleted), ("index_bytes", r.indexBytes),
    ("index_serials_pruned", r.indexSerialsPruned),
    ("index_entries_removed", r.indexEntriesRemoved)]

end CollectionReport

namespace Database

/-- Run a whole cycle. -/
def collect (db : Database) (config : CollectionConfig) (demote : Bool) :
    CollectionReport × Database :=
  let events := EventTier.census db.events
  let victims := EventTier.mark events config
  let (swept, db) := EventTier.sweep db victims demote
  let indices := IndexTier.census db.events
  let pruned := IndexTier.mark indices config
  let (removed, db) := IndexTier.sweep db pruned
  ({ liveBytes := events.total
     liveRecords := events.live.length
     demotedRecords := events.demoted
     marked := victims.length
     demoted := swept.demoted
     deleted := swept.deleted
     indexBytes := IndexTier.total indices
     indexSerialsPruned := pruned.length
     indexEntriesRemoved := removed }, db)

end Database
end EventArchive
