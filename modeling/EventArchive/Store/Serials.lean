import EventArchive.Store.Database

/-!
# Serials

Serials only grow. They are leased in batches: the bound that is written to the database lies above
every serial given out, so a crash wastes the rest of a lease and never gives a serial out twice.
-/
namespace EventArchive

/-- The serials that may be given out without asking the database. -/
structure Lease where
  /-- The next serial to give out. -/
  next : Serial
  /-- The first serial the database has not set aside. -/
  limit : Serial
  /-- How many serials to set aside at a time. -/
  batch : UInt64
  deriving DecidableEq, Repr

namespace Lease

/-- Begin at the bound of a database. A batch of zero counts as one. -/
def resume (db : Database) (batch : UInt64) : Lease :=
  let start := (db.settings.get? Database.serialSetting).getD 0
  ⟨start, start, max batch 1⟩

/-- Write the bound of a database. -/
def persist (db : Database) (bound : Serial) : Database :=
  { db with settings := db.settings.insert Database.serialSetting bound }

/-- Give out the next serial, setting aside another batch first if the lease is used up. -/
def issue (l : Lease) (db : Database) : Except ArchiveError (Serial × Lease × Database) :=
  if l.limit ≤ l.next then
    if l.next.toNat + l.batch.toNat < UInt64.size then
      let limit := l.next + l.batch
      .ok (l.next, { l with next := l.next + 1, limit }, persist db limit)
    else .error (.serialAllocation "serial space exhausted")
  else .ok (l.next, { l with next := l.next + 1 }, db)

/-- Give out so many serials. A serial that cannot be given out leaves everything as it is. -/
def issueMany (l : Lease) (db : Database) :
    (n : Nat) → List (Except ArchiveError Serial) × Lease × Database
  | 0 => ([], l, db)
  | n + 1 =>
    match l.issue db with
    | .ok (serial, l, db) =>
      let (results, rest) := l.issueMany db n
      (.ok serial :: results, rest)
    | .error e =>
      let (results, rest) := l.issueMany db n
      (.error e :: results, rest)

/-- Return the rest of the lease. -/
def release (l : Lease) (db : Database) : Lease × Database :=
  ({ l with limit := l.next }, persist db l.next)

end Lease
end EventArchive
