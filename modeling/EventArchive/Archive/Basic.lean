import EventArchive.Collection.Cycle
import EventArchive.Store.Access
import EventArchive.Store.Mutation

/-!
# An open archive

An archive is a database that is in use: it holds a lease of serials and may collect at intervals.
Closing it returns the lease; an archive that is not closed loses the rest of its lease. All
operations but closing fail on an archive that is closed.
-/
namespace EventArchive

/-- A database in use. -/
structure Archive where
  config : Config
  db : Database
  lease : Lease
  /-- Whether collection demotes its victims, since another tier has them too. -/
  demotes : Bool
  isClosed : Bool
  /-- Seconds until the next collection, once collection has been started. -/
  untilCollection : Option Nat
  deriving DecidableEq

namespace Archive

/-! ### Opening and closing -/

/-- Begin to use a database. -/
def start (config : Config) (db : Database) : Except ArchiveError Archive := do
  config.validate
  let db ← db.prepare
  return ⟨config, db, Lease.resume db config.serialBatch, false, false, none⟩

/-- Stop using an archive without returning the lease. -/
def halt (a : Archive) : Archive := { a with isClosed := true, untilCollection := none }

/-- Close an archive. Closing it again does nothing. -/
def close (a : Archive) : Archive :=
  if a.isClosed then a
  else
    let (lease, db) := a.lease.release a.db
    { a.halt with lease, db }

/-- The error of a closed archive. -/
def ensureOpen (a : Archive) : Except ArchiveError Unit :=
  if a.isClosed then .error .closed else .ok ()

/-! ### Changes -/

/-- Start to collect at intervals, if the configuration asks for it and it has not been started. -/
def init (a : Archive) : Except ArchiveError Unit × Archive :=
  match a.ensureOpen with
  | .error e => (.error e, a)
  | .ok () =>
    if a.config.collection.enabled ∧ a.untilCollection = none then
      (.ok (), { a with untilCollection := some a.config.collection.interval.toNat })
    else (.ok (), a)

/-- Save an event. -/
def save (a : Archive) (now : Int64) (e : Event) : Except ArchiveError SaveOutcome × Archive :=
  match a.ensureOpen with
  | .error err => (.error err, a)
  | .ok () =>
    let (outcome, lease, db) := a.db.save a.lease (clampTime now) e
    (outcome, { a with lease, db })

/-- Delete an event. -/
def delete (a : Archive) (e : Event) : Except ArchiveError DeleteOutcome × Archive :=
  match a.ensureOpen with
  | .error err => (.error err, a)
  | .ok () =>
    let (outcome, db) := a.db.delete e
    (.ok outcome, { a with db })

/-- Choose whether collection demotes. -/
def withDemotion (a : Archive) (demotes : Bool) : Archive := { a with demotes }

/-- Run a collection cycle now. -/
def collect (a : Archive) : Except ArchiveError CollectionReport × Archive :=
  match a.ensureOpen with
  | .error err => (.error err, a)
  | .ok () =>
    let (report, db) := a.db.collect a.config.collection a.demotes
    (.ok report, { a with db })

/-! ### Time -/

/-- Let a second pass; collection runs when its interval is over. -/
def tick (a : Archive) : Archive :=
  match a.untilCollection with
  | none => a
  | some (n + 2) => { a with untilCollection := some (n + 1) }
  | some _ => { a.collect.2 with untilCollection := some a.config.collection.interval.toNat }

end Archive
end EventArchive
