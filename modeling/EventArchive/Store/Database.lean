import EventArchive.Data.SortedMap
import EventArchive.Key.Index
import EventArchive.Stored.Counter
import EventArchive.Stored.Value

/-!
# The database of a tier

A database has three tables: the key space of events, indices and counters, a few named settings,
and the serials of removed records whose tag keys are still to be dropped. A write transaction is a
function from a database to the next one, so it happens as a whole or not at all.
-/
namespace EventArchive

/-- The table of events, indices and counters. -/
abbrev Keyspace := SortedMap Bytes Bytes

namespace Keyspace

/-- The value of a record. -/
def record? (k : Keyspace) (serial : Serial) : Option Bytes := k.get? (Key.event serial)

/-- Every key of a layout, with its value. -/
def ofLayout (k : Keyspace) (l : Layout) : List (Bytes × Bytes) :=
  k.range l.lowerBound l.upperBound

/-- Every key of an index. -/
def secondary (k : Keyspace) : List (Bytes × Bytes) :=
  k.range Layout.createdAt.lowerBound Layout.counter.lowerBound

end Keyspace

/-- Where an event is, and whether it is demoted. -/
structure Located where
  serial : Serial
  stub : Bool
  deriving DecidableEq, Repr

namespace Keyspace

/-- Resolve an entry of the identifier index: the index holds eight bytes of an identifier, so the
record itself has to begin with all of it. -/
def locateAt (k : Keyspace) (eventId : EventId) (key : Bytes) : Option Located := do
  if key.length ≠ (Key.idStem eventId).length + 8 then none
  let serial ← Key.serial? key
  let value ← k.record? serial
  if StoredValue.idBytes? value = some eventId.bytes then
    some ⟨serial, StoredValue.isStub value⟩
  else none

/-- Find an event by its identifier; of several records the one with the smallest serial. -/
def locate (k : Keyspace) (eventId : EventId) : Option Located :=
  let stem := Key.idStem eventId
  (k.rangeThrough stem (stem ++ List.replicate 8 0xff)).findSome? fun e =>
    k.locateAt eventId e.1

end Keyspace

/-- The tables of a tier. -/
structure Database where
  events : Keyspace
  settings : SortedMap String UInt64
  /-- Serials of removed records whose tag keys are left. -/
  purge : SortedMap Serial Unit
  deriving DecidableEq

namespace Database

/-- Name of the setting that holds the version of the key layouts. -/
def versionSetting : String := "version"
/-- Name of the setting that no issued serial reaches. -/
def serialSetting : String := "serial"
/-- The version of the key layouts of this library. -/
def layoutVersion : UInt64 := 1

/-- A database without tables. -/
def empty : Database := ⟨∅, ∅, ∅⟩

/-- Prepare a database for use: a new one gets the version, one of another version is refused. -/
def prepare (db : Database) : Except ArchiveError Database :=
  match db.settings.get? versionSetting with
  | none => .ok { db with settings := db.settings.insert versionSetting layoutVersion }
  | some v =>
    if v = layoutVersion then .ok db
    else .error (.config ("database layout version " ++ toString v.toNat
      ++ " is not supported (expected " ++ toString layoutVersion.toNat ++ ")"))

end Database
end EventArchive
