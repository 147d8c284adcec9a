import EventArchive.Stored.Record

/-!
# Streams of results

A query sends its records through a buffer of bounded size and says at the end how it went. The
producer works ahead until the buffer is full and it holds one more record that has no room. A
reader that stops early finds the producer in that state.
-/
namespace EventArchive

/-- How a stream of results ended. -/
inductive QueryOutcome where
  /-- Everything was sent, or as much as was asked for. -/
  | complete
  /-- The reader cancelled the query or went away. -/
  | cancelled
  /-- Some parts of the query failed, so results may be missing. -/
  | incomplete (failed : Nat)
  /-- The producer stopped without a word. -/
  | aborted
  deriving DecidableEq, Repr

/-- What a producer sends: its records, the outcome if it gets to send them all, and the outcome if
the reader goes away before. -/
structure Feed (α : Type) where
  records : List α
  ended : QueryOutcome
  stopped : QueryOutcome

namespace Feed
variable {α : Type}

/-- The feed of a query that finds some records. -/
def ofQuery (records : List α) : Feed α := ⟨records, .complete, .cancelled⟩

/-- The feed that sends nothing. -/
def silent (outcome : QueryOutcome) : Feed α := ⟨[], outcome, outcome⟩

/-- The feed of other records with the same outcomes. -/
def map {β : Type} (f : α → β) (feed : Feed α) : Feed β :=
  ⟨feed.records.map f, feed.ended, feed.stopped⟩

/-- Number of slots of a buffer; there is at least one. -/
def slots (buffer : Nat) : Nat := max buffer 1

/-- Whether the producer is done when `n` records have been read. -/
def isDone (f : Feed α) (n buffer : Nat) : Bool := f.records.length ≤ n + slots buffer

/-- The records that wait in the buffer when `n` records have been read. -/
def buffered (f : Feed α) (n buffer : Nat) : List α := (f.records.drop n).take (slots buffer)

/-- The records the producer has sent or holds when `n` records have been read. -/
def offered (f : Feed α) (n buffer : Nat) : List α := f.records.take (n + slots buffer + 1)

/-- The outcome if the reader goes away after `n` records. -/
def outcomeAfter (f : Feed α) (n buffer : Nat) : QueryOutcome :=
  if f.isDone n buffer then f.ended else f.stopped

end Feed
end EventArchive
