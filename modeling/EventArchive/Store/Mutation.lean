import EventArchive.Store.Serials
import EventArchive.Stored.Record

/-!
# Saving and deleting

Both are single transactions: a record and the keys derived from it appear and disappear together.
Saving an event of a replaceable kind removes the older versions of its slot, unless one of them is
not older. A demoted version is known by its identifier and its time alone; its tag keys cannot be
rebuilt, so its serial is queued for the next sweep of the indices.
-/
namespace EventArchive

/-- What saving did. -/
inductive SaveOutcome where
  /-- The event is new. -/
  | stored
  /-- The event is there already. -/
  | duplicate
  /-- A demoted event is whole again. -/
  | revived
  /-- A version that is not older holds the slot. -/
  | superseded
  /-- The kind is never stored. -/
  | ephemeral
  deriving DecidableEq, Repr

/-- The name of the outcome. -/
def SaveOutcome.name : SaveOutcome → String
  | .stored => "Stored"
  | .duplicate => "Duplicate"
  | .revived => "Revived"
  | .superseded => "Superseded"
  | .ephemeral => "Ephemeral"

/-- What deleting did. -/
inductive DeleteOutcome where
  | deleted
  | notFound
  deriving DecidableEq, Repr

/-- The name of the outcome. -/
def DeleteOutcome.name : DeleteOutcome → String
  | .deleted => "Deleted"
  | .notFound => "NotFound"

/-- An earlier record of a slot. -/
structure Prior where
  serial : Serial
  record : Record
  deriving DecidableEq

namespace Keyspace

/-! ### Records -/

/-- Write the value of a record and a fresh counter for it. -/
def putRecord (k : Keyspace) (now : UInt64) (e : Event) (serial : Serial) : Keyspace :=
  let value := StoredValue.encode e
  (k.insert (Key.event serial) value).insert (Key.counter e.id serial)
    (Counter.ofSize now value.length).encode

/-- Write a record, its index keys and its counter. -/
def insertRecord (k : Keyspace) (now : UInt64) (e : Event) (serial : Serial) : Keyspace :=
  Keyspace.putRecord (k.insertAll (Key.index e serial) []) now e serial

/-- Remove a record, the index keys of an event, and its counter. -/
def removeRecord (k : Keyspace) (e : Event) (serial : Serial) : Keyspace :=
  k.eraseAll (Key.event serial :: Key.index e serial ++ [Key.counter e.id serial])

/-- Replace the value of a record by the identifier, and drop the counter. -/
def demoteRecord (k : Keyspace) (id : EventId) (serial : Serial) : Keyspace :=
  (k.insert (Key.event serial) id.bytes).erase (Key.counter id serial)

/-! ### Earlier versions -/

/-- The record of a slot behind a key of the author and kind index. A whole record has to agree in
author, kind and identifier. A demoted one is taken at its word, except in a slot with an
identifier, which it cannot show. -/
def priorAt (k : Keyspace) (slot : Slot) (key : Bytes) : Option Prior := do
  let serial ← Key.serial? key
  let time ← Key.timestamp? key
  let value ← k.record? serial
  match StoredValue.decode value with
  | .ok (.full e) => if e.slot? = some slot then some ⟨serial, .full e⟩ else none
  | .ok (.stub id) =>
    if slot.identifier.isSome then none else some ⟨serial, .stub id (timeOfClamped time)⟩
  | .error _ => none

/-- The records of a slot, in key order. -/
def priors (k : Keyspace) (slot : Slot) : List Prior :=
  let stem := Key.pubkeyKindStem slot.pubkey slot.kind
  (k.rangeThrough stem (stem ++ List.replicate 16 0xff)).filterMap fun e =>
    if e.1.length = stem.length + 16 then k.priorAt slot e.1 else none

/-- The records that compete with an event. -/
def rivals (k : Keyspace) (e : Event) : List Prior :=
  match e.slot? with
  | some slot => k.priors slot
  | none => []

end Keyspace

/-- Whether an earlier record gives way to an event. -/
def Prior.yieldsTo (p : Prior) (e : Event) : Bool :=
  isOlder p.record.createdAt p.record.id e.createdAt e.id

namespace Database

/-- Remove a record of the slot of an event. -/
def removePrior (db : Database) (e : Event) (p : Prior) : Database :=
  match p.record with
  | .full prior => { db with events := db.events.removeRecord prior p.serial }
  | .stub id time =>
    { db with
      events := db.events.eraseAll
        (Key.event p.serial :: Key.untagged id e.pubkey e.kind time p.serial)
      purge := db.purge.insert p.serial () }

/-- Save an event under a serial. -/
def saveAs (db : Database) (now : UInt64) (serial : Serial) (e : Event) :
    SaveOutcome × Database :=
  match db.events.locate e.id with
  | some ⟨_, false⟩ => (.duplicate, db)
  | some ⟨found, true⟩ => (.revived, { db with events := db.events.putRecord now e found })
  | none =>
    let rivals := db.events.rivals e
    if rivals.all (·.yieldsTo e) then
      let cleared := rivals.foldl (·.removePrior e ·) db
      (.stored, { cleared with events := cleared.events.insertRecord now e serial })
    else (.superseded, db)

/-- Save an event. Only an event that is neither ephemeral nor whole in the archive takes a
serial, and it takes one even if it is superseded. -/
def save (db : Database) (lease : Lease) (now : UInt64) (e : Event) :
    Except ArchiveError SaveOutcome × Lease × Database :=
  if e.kind.retention = .ephemeral then (.ok .ephemeral, lease, db)
  else if (db.events.locate e.id).any (!·.stub) then (.ok .duplicate, lease, db)
  else match lease.issue db with
    | .error err => (.error err, lease, db)
    | .ok (serial, lease, db) =>
      let (outcome, db) := db.saveAs now serial e
      (.ok outcome, lease, db)

/-- Delete the event of an identifier. The keys removed with it are those of the event given. -/
def delete (db : Database) (e : Event) : DeleteOutcome × Database :=
  match db.events.locate e.id with
  | none => (.notFound, db)
  | some found => (.deleted, { db with events := db.events.removeRecord e found.serial })

/-- Remove the records and every index key of some serials, and count what was there. -/
def purgeSerials (db : Database) (serials : SortedMap Serial Unit) : Nat × Database :=
  let records := serials.keys.filter fun s => (db.events.record? s).isSome
  let doomed := db.events.secondary.filter fun e => (Key.serial? e.1).any serials.contains
  let events := (db.events.eraseAll (records.map Key.event)).eraseAll (doomed.map (·.1))
  (records.length + doomed.length, { db with events })

end Database
end EventArchive
