import EventArchive.Tiered.Poll

/-!
# Requests

The operations of an archive and of a tiered archive as values, so that a history of operations is a
list. Both answer the same requests; what concerns one tier alone goes to the local one.
-/
namespace EventArchive

/-- What a client asks for. -/
inductive Request where
  | save (event : Event)
  | delete (event : Event)
  /-- Read everything a query sends; the query may be cancelled before it starts. -/
  | query (filter : Filter) (cancelled : Bool)
  /-- Read at most so many records of a query. -/
  | take (filter : Filter) (n : Nat)
  | count (filter : Filter) (cancelled : Bool)
  | collect
  /-- Choose whether collection demotes. -/
  | demotion (enabled : Bool)
  | init
  | close

/-- What a client gets. -/
inductive Answer where
  | saved (outcome : SaveOutcome)
  | deleted (outcome : DeleteOutcome)
  | read (reading : Reading Record)
  | counted (n : Nat)
  | collected (report : CollectionReport)
  | demotion (enabled : Bool)
  | done

namespace Archive

/-- Answer a request. -/
def answer (a : Archive) (now : Int64) : Request → Except ArchiveError Answer × Archive
  | .save e => (a.save now e).map (·.map .saved) id
  | .delete e => (a.delete e).map (·.map .deleted) id
  | .query f cancelled => (a.query now f cancelled).map (·.map .read) id
  | .take f n => (a.take now f n).map (·.map .read) id
  | .count f cancelled => ((a.count f cancelled).map .counted, a)
  | .collect => a.collect.map (·.map .collected) id
  | .demotion enabled => (.ok (.demotion enabled), a.withDemotion enabled)
  | .init => a.init.map (·.map fun _ => .done) id
  | .close => (.ok .done, a.close)

end Archive

namespace TieredArchive

/-- Answer a request; `order` says which lookup completes next whenever a query waits for one. -/
def answer (t : TieredArchive) (order : Nat → Nat) (now : Int64) :
    Request → Except ArchiveError Answer × TieredArchive
  | .save e => (t.save now e).map (·.map .saved) id
  | .delete e => (t.delete e).map (·.map .deleted) id
  | .query f cancelled => (t.query order now f cancelled).map (·.map .read) id
  | .take f n => (t.take order now f n).map (·.map .read) id
  | .count f cancelled => ((t.count f cancelled).map .counted, t)
  | .init => (t.init now).map (·.map fun _ => .done) id
  | .close => t.close.map (·.map fun _ => .done) id
  | request => (t.primary.answer now request).map id fun primary => { t with primary }

end TieredArchive
end EventArchive
