import EventArchive.Config.Basic
import EventArchive.Store.Mutation

/-!
# Collecting records

The event tier is what the whole records take: the bytes of their keys and values. When it reaches
its high mark, the records that were delivered longest ago are the victims, as many as it takes to
come down to the low mark. A victim is deleted or, if another tier still has it, demoted.
-/
namespace EventArchive.EventTier

/-- A whole record as the collection sees it. -/
structure Entry where
  serial : Serial
  /-- Bytes of the key and the value. -/
  size : Nat
  lastAccess : UInt64
  deriving DecidableEq, Repr

/-- What there is to collect. -/
structure Census where
  live : List Entry
  /-- Number of demoted records. -/
  demoted : Nat
  deriving DecidableEq, Repr

namespace Census

/-- Bytes of all whole records. -/
def total (c : Census) : Nat := (c.live.map (·.size)).foldr (· + ·) 0

end Census

/-- When each record was last delivered, by its counter; damaged counters say nothing. -/
def lastAccesses (k : Keyspace) : List (Serial × UInt64) :=
  (k.ofLayout .counter).filterMap fun e => do
    let serial ← Key.serial? e.1
    match Counter.decode e.2 with
    | .ok c => some (serial, c.lastAccess)
    | .error _ => none

/-- The last time noted for a serial, zero if there is none. -/
def lastAccess (notes : List (Serial × UInt64)) (serial : Serial) : UInt64 :=
  ((notes.reverse.find? (·.1 == serial)).map (·.2)).getD 0

/-- Count the records. -/
def census (k : Keyspace) : Census :=
  let notes := lastAccesses k
  let records := (k.ofLayout .event).filterMap fun e => (Key.serial? e.1).map fun s => (s, e)
  { live := (records.filter fun r => ! StoredValue.isStub r.2.2).map fun r =>
      ⟨r.1, r.2.1.length + r.2.2.length, lastAccess notes r.1⟩
    demoted := (records.filter fun r => StoredValue.isStub r.2.2).length }

/-- Whether a record is a victim before another one, or the same. -/
def Entry.goesBefore (a b : Entry) : Bool :=
  a.lastAccess < b.lastAccess || (a.lastAccess == b.lastAccess && a.serial ≤ b.serial)

/-- The records from the front of a list that have to go for the rest to be within a bound. -/
def needed {α : Type} (size : α → Nat) (bound : Nat) : (remaining : Nat) → List α → List α
  | _, [] => []
  | remaining, a :: as =>
    if remaining ≤ bound then [] else a :: needed size bound (remaining - size a) as

/-- The victims, longest without access first. -/
def mark (c : Census) (config : CollectionConfig) : List Serial :=
  if ¬ config.enabled ∨ c.total < config.highMark.toNat then []
  else (needed Entry.size config.lowMark.toNat c.total
    (c.live.mergeSort Entry.goesBefore)).map (·.serial)

/-- What a sweep did. -/
structure Swept where
  demoted : Nat
  deleted : Nat
  deriving DecidableEq, Repr

/-- Sweep one victim. One that is gone, demoted or damaged by now is passed over. -/
def sweepOne (demote : Bool) (s : Swept × Database) (serial : Serial) : Swept × Database :=
  let (swept, db) := s
  match (db.events.record? serial).map StoredValue.decode with
  | some (.ok (.full e)) =>
    if demote then
      ({ swept with demoted := swept.demoted + 1 },
        { db with events := db.events.demoteRecord e.id serial })
    else
      ({ swept with deleted := swept.deleted + 1 },
        { db with events := db.events.removeRecord e serial })
  | _ => (swept, db)

/-- Sweep the victims. -/
def sweep (db : Database) (victims : List Serial) (demote : Bool) : Swept × Database :=
  victims.foldl (sweepOne demote) (⟨0, 0⟩, db)

end EventArchive.EventTier
