import EventArchive.Archive.Query
import EventArchive.Relay.Basic

/-!
# Parts of a relay

Gates that look at the kind, sinks and sources that are backed by an archive, and parts that stand
in for others: recorders, fixed lists of events, and parts that always fail.
-/
namespace EventArchive

/-- What the parts of a relay work on. -/
structure Backing where
  clock : Int64
  archive : Archive
  /-- What the recorders saw: the recorder's name and the event's identifier. -/
  recorded : List (String × EventId)

namespace Gate

/-- Accept some kinds alone. -/
def ofKinds (kinds : List Kind) : Gate := fun e =>
  if e.kind ∈ kinds then .accept else .reject ("kind " ++ e.kind.describe ++ " not allowed")

/-- Reject everything. -/
def refusing (reason : String) : Gate := fun _ => .reject reason

end Gate

namespace Sink

/-- Save events in the archive. That an event is not kept, since it is a duplicate or has been
superseded, is no error. -/
def archive : Sink Backing := fun e b =>
  let (outcome, a) := b.archive.save b.clock e
  (match outcome with
    | .ok _ => .ok ()
    | .error cause => .error (.sink cause.message), { b with archive := a })

/-- Record the identifiers of events. -/
def recorder (name : String) : Sink Backing := fun e b =>
  (.ok (), { b with recorded := b.recorded ++ [(name, e.id)] })

/-- Fail. -/
def failing (detail : String) : Sink Backing := fun _ b => (.error (.sink detail), b)

end Sink

namespace Source

/-- Fetch the whole events of the archive. What is left of a demoted event is not handed out. -/
def archive : Source Backing := fun f b =>
  let (reading, a) := b.archive.query b.clock f false
  (match reading with
    | .ok r => .ok r.events
    | .error cause => .error (.source cause.message), { b with archive := a })

/-- Hand out the same events for every filter. -/
def fixed (events : List Event) : Source Backing := fun _ b => (.ok events, b)

/-- Fail. -/
def failing (detail : String) : Source Backing := fun _ b => (.error (.source detail), b)

end Source
end EventArchive
