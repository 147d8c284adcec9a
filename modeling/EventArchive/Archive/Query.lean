import EventArchive.Archive.Basic
import EventArchive.Query.Count
import EventArchive.Query.Feed
import EventArchive.Query.Merge

/-!
# Querying an archive

A query delivers the hits of its plan through a buffer. A whole record counts as accessed when the
producer turns to it, so a reader that stops early leaves a buffer of records, and one more, that
count as accessed without having been read.
-/
namespace EventArchive

/-- What a reader of a stream received. -/
structure Reading (α : Type) where
  records : List α
  /-- What waited in the buffer when the reader stopped. -/
  rest : List α
  outcome : QueryOutcome

namespace Feed
variable {α : Type}

/-- Read everything. -/
def readAll (f : Feed α) : Reading α := ⟨f.records, [], f.ended⟩

/-- Read at most `n` records through a buffer. -/
def readSome (f : Feed α) (n buffer : Nat) : Reading α :=
  ⟨f.records.take n, f.buffered n buffer, f.outcomeAfter n buffer⟩

end Feed

/-- The whole event of a reading's records. -/
def Reading.events (r : Reading Record) : List Event := r.records.filterMap Record.event?

/-- The reading of other records with the same outcome. -/
def Reading.map {α β : Type} (f : α → β) (r : Reading α) : Reading β :=
  ⟨r.records.map f, r.rest.map f, r.outcome⟩

/-- The access that a hit counts as; demoted records are not accessed. -/
def Hit.access? (h : Hit) : Option Access := h.record.event?.map fun e => ⟨e.id, h.serial⟩

namespace Archive

/-- Slots of the buffer between a query and its reader. -/
def buffer (a : Archive) : Nat := a.config.scanQueueDepth.toNat

/-- What a query sends. A query that is cancelled before it starts sends nothing; it notices only
where there is something to scan. -/
def feed (a : Archive) (f : Filter) (cancelled : Bool) : Except ArchiveError (Feed Hit) := do
  a.ensureOpen
  let plan ← Plan.ofFilter f
  if cancelled then
    return .silent (if plan.scans.isEmpty then .complete else .cancelled)
  return .ofQuery (plan.hits a.db.events (a.config.effectiveLimit f.limit).toNat
    a.config.scanPageSize.toNat)

/-- Note the accesses of some hits. -/
def noteAccesses (a : Archive) (now : Int64) (hits : List Hit) : Archive :=
  let queue := (hits.filterMap Hit.access?).foldl AccessQueue.record
    (AccessQueue.start a.config.access)
  { a with db := { a.db with events := (queue.drain a.db.events (clampTime now)).2 } }

/-- Read everything that a query sends. -/
def query (a : Archive) (now : Int64) (f : Filter) (cancelled : Bool) :
    Except ArchiveError (Reading Record) × Archive :=
  match a.feed f cancelled with
  | .error e => (.error e, a)
  | .ok feed => (.ok (feed.readAll.map Hit.record), a.noteAccesses now feed.records)

/-- Read at most `n` records of a query. -/
def take (a : Archive) (now : Int64) (f : Filter) (n : Nat) :
    Except ArchiveError (Reading Record) × Archive :=
  match a.feed f false with
  | .error e => (.error e, a)
  | .ok feed =>
    (.ok ((feed.readSome n a.buffer).map Hit.record),
      a.noteAccesses now (feed.offered n a.buffer))

/-- Number of records that satisfy a filter, without a limit. A count that is cancelled before it
starts notices at the first key it meets. -/
def count (a : Archive) (f : Filter) (cancelled : Bool) : Except ArchiveError Nat := do
  a.ensureOpen
  let plan ← Plan.ofFilter f
  if cancelled then
    if plan.meetsKey a.db.events then throw .cancelled
    return 0
  return plan.count a.db.events

end Archive
end EventArchive
