import EventArchive.Store.Database

/-!
# Editing a database

Single changes to the tables of a database, made from outside while no archive uses it.
-/
namespace EventArchive

/-- A change to one entry of a table. -/
inductive Edit where
  | put (key value : Bytes)
  | remove (key : Bytes)
  | set (setting : String) (value : UInt64)
  | queuePurge (serial : Serial)
  deriving DecidableEq

namespace Database

/-- Make one change. -/
def edit (db : Database) : Edit → Database
  | .put key value => { db with events := db.events.insert key value }
  | .remove key => { db with events := db.events.erase key }
  | .set setting value => { db with settings := db.settings.insert setting value }
  | .queuePurge serial => { db with purge := db.purge.insert serial () }

/-- Make changes one after the other. -/
def editAll (db : Database) (edits : List Edit) : Database := edits.foldl edit db

end Database
end EventArchive
