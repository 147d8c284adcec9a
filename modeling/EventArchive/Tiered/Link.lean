import EventArchive.Archive.Query
import EventArchive.Tiered.Merge

/-!
# The link to the secondary tier

What a tiered archive asks of its secondary tier goes through a link that may be disturbed: an
operation is refused, it ends the task that asked for it, or its results do not arrive as they were
sent. An undisturbed link passes everything on.
-/
namespace EventArchive

/-- How the link disturbs an operation. -/
inductive Fault where
  /-- The operation fails, and nothing is done. -/
  | refused
  /-- The task that asked ends without an answer, and nothing is done. -/
  | broken
  deriving DecidableEq, Repr

/-- How the link disturbs a query. -/
inductive QueryFault where
  | refused
  | broken
  /-- No records arrive. -/
  | empty
  /-- No records arrive, and no outcome. -/
  | aborted
  /-- Of every record only the identifier and the time arrive. -/
  | stubs
  /-- All records arrive, and then another outcome. -/
  | ending (outcome : QueryOutcome)
  deriving DecidableEq, Repr

/-- The disturbances of each operation. A lookup is a query for one identifier and one result. -/
structure Link where
  init : Option Fault
  close : Option Fault
  save : Option Fault
  delete : Option Fault
  count : Option Fault
  query : Option QueryFault
  lookup : Option QueryFault
  deriving DecidableEq, Repr

/-- What comes back over the link. -/
inductive Reply (α : Type) where
  | answer (result : Except ArchiveError α)
  /-- The task that asked ends. -/
  | lost

namespace Reply
variable {α : Type}

/-- The error of an operation whose task ended. -/
def taskError : ArchiveError := .task "the task ended without an answer"

/-- The result for a caller that outlives the task. -/
def result : Reply α → Except ArchiveError α
  | .answer r => r
  | .lost => .error taskError

end Reply

/-- What a query sends over the link, and the hits that count as accessed when `n` records of it
have been read. A disturbed link takes all records from the tier at once. -/
structure Delivery where
  feed : Feed Record
  accessed : (n : Nat) → List Hit

namespace Delivery

/-- The delivery of an undisturbed link. -/
def plain (tier : Archive) (feed : Feed Hit) : Delivery :=
  ⟨feed.map Hit.record, fun n => feed.offered n tier.buffer⟩

/-- The delivery of records that have all been taken from the tier. -/
def taken (feed : Feed Hit) (records : List Record) (outcome : QueryOutcome) : Delivery :=
  ⟨⟨records, outcome, outcome⟩, fun _ => feed.records⟩

/-- The delivery without records. -/
def silent (outcome : QueryOutcome) : Delivery := ⟨.silent outcome, fun _ => []⟩

end Delivery

namespace Link

/-- The link that passes everything on. -/
def undisturbed : Link := ⟨none, none, none, none, none, none, none⟩

/-- The error of an operation that the link refuses. -/
def offline : ArchiveError := .database "secondary offline"

/-- Ask the secondary tier to do something. -/
def ask {α : Type} (fault : Option Fault) (tier : Archive)
    (run : Archive → Except ArchiveError α × Archive) : Reply α × Archive :=
  match fault with
  | none => ((.answer (run tier).1), (run tier).2)
  | some .refused => (.answer (.error offline), tier)
  | some .broken => (.lost, tier)

/-- The record of which only the identifier and the time arrive. -/
def strip (r : Record) : Record := .stub r.id r.createdAt

/-- The disturbance of a query: lookups have one of their own. -/
def faultFor (link : Link) (f : Filter) : Option QueryFault :=
  if f.ids.length = 1 ∧ f.limit = some 1 then link.lookup else link.query

/-- Send a query over the link. -/
def send (link : Link) (tier : Archive) (f : Filter) (cancelled : Bool) : Reply Delivery :=
  match link.faultFor f with
  | none => .answer ((tier.feed f cancelled).map (Delivery.plain tier))
  | some .refused => .answer (.error offline)
  | some .broken => .lost
  | some .empty => .answer (.ok (.silent .complete))
  | some .aborted => .answer (.ok (.silent .aborted))
  | some .stubs => .answer ((tier.feed f cancelled).map fun feed =>
      .taken feed (feed.records.map fun h => strip h.record) feed.ended)
  | some (.ending outcome) => .answer ((tier.feed f cancelled).map fun feed =>
      .taken feed (feed.records.map Hit.record) outcome)

/-- The filter of a lookup. -/
def lookupFilter (id : EventId) : Filter := (Filter.any.withIds [id]).withLimit 1

/-- Whether a record is the whole event of an identifier. -/
def isPayload (id : EventId) (r : Record) : Bool := !r.isStub && r.id == id

/-- Look up an event; also gives the hits that count as accessed. -/
def fetch (link : Link) (tier : Archive) (id : EventId) : Lookup × List Hit :=
  match link.send tier (lookupFilter id) false with
  | .lost => (.failed, [])
  | .answer (.error _) => (.failed, [])
  | .answer (.ok d) =>
    let passed := d.feed.records.takeWhile (!isPayload id ·)
    match (d.feed.records.find? (isPayload id)).bind Record.event? with
    | some e => (.found e, d.accessed (passed.length + 1))
    | none => (.absent, d.accessed passed.length)

end Link
end EventArchive
