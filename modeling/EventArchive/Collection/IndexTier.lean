import EventArchive.Collection.EventTier

/-!
# Collecting the indices of demoted records

A demoted record keeps its index keys, so that it can still be found. These keys have a budget of
their own. When it is reached, the oldest demoted records lose everything. The sweep also drops the
tag keys that demoted records left when a newer version displaced them.
-/
namespace EventArchive.IndexTier

/-- A demoted record as the collection sees it. -/
structure Entry where
  serial : Serial
  /-- The time its keys hold. -/
  createdAt : UInt64
  /-- Bytes of its index keys. -/
  bytes : Nat
  deriving DecidableEq, Repr

/-- The serials of the demoted records. -/
def demotedSerials (k : Keyspace) : List Serial :=
  (k.ofLayout .event).filterMap fun e =>
    if StoredValue.isStub e.2 then Key.serial? e.1 else none

/-- The index keys of a serial. -/
def keysOf (k : Keyspace) (serial : Serial) : List Bytes :=
  (k.secondary.map (·.1)).filter fun key => Key.serial? key == some serial

/-- Count one demoted record. -/
def entry (k : Keyspace) (serial : Serial) : Entry :=
  let keys := keysOf k serial
  let times := (keys.filter fun key => Key.layout? key == some .createdAt).map fun key =>
    (Key.timestamp? key).getD 0
  ⟨serial, times.getLast?.getD 0, keys.flatten.length⟩

/-- The demoted records. -/
def census (k : Keyspace) : List Entry := (distinct (demotedSerials k)).map (entry k)

/-- Bytes of the index keys of all demoted records. -/
def total (c : List Entry) : Nat := (c.map (·.bytes)).foldr (· + ·) 0

/-- Whether a record is a victim before another one, or the same. -/
def Entry.goesBefore (a b : Entry) : Bool :=
  a.createdAt < b.createdAt || (a.createdAt == b.createdAt && a.serial ≤ b.serial)

/-- The victims, oldest first. -/
def mark (c : List Entry) (config : CollectionConfig) : List Serial :=
  if ¬ config.enabled ∨ total c < config.indexHighMark.toNat then []
  else (EventTier.needed Entry.bytes config.indexLowMark.toNat (total c)
    (c.mergeSort Entry.goesBefore)).map (·.serial)

/-- The serials that a sweep clears: those queued, and the victims that are still demoted. -/
def doomed (db : Database) (victims : List Serial) : SortedMap Serial Unit :=
  (victims.filter fun s => (db.events.record? s).any StoredValue.isStub).foldl
    (fun m s => m.insert s ()) db.purge

/-- Clear the victims that are still demoted and everything that is queued; count the keys. -/
def sweep (db : Database) (victims : List Serial) : Nat × Database :=
  let serials := doomed db victims
  if serials.isEmpty then (0, db)
  else
    let (removed, db) := db.purgeSerials serials
    (removed, { db with purge := ∅ })

end EventArchive.IndexTier
