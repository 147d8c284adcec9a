import EventArchive.Data.Distinct
import EventArchive.Event.Basic
import EventArchive.Relay.Error

/-!
# Gathering events

The answers of several sources make one list: newest first, then by identifier, each identifier
once, and at most as many events as asked for. A source that fails contributes nothing.
-/
namespace EventArchive

/-- Whether an event may stand before another one: newest first, then by identifier. -/
def Event.standsBefore (a b : Event) : Bool :=
  b.createdAt < a.createdAt || (a.createdAt == b.createdAt && (compare a.id b.id).isLE)

namespace Gather

/-- The events of the sources that answered, in the order of the sources. -/
def answered (batches : List (Except RelayError (List Event))) : List Event :=
  batches.flatMap fun
    | .ok events => events
    | .error _ => []

/-- The events in the order in which they are handed out. -/
def newestFirst (events : List Event) : List Event := events.mergeSort Event.standsBefore

/-- The first events up to a limit; a limit of zero is none. -/
def cut (limit : Option UInt64) (events : List Event) : List Event :=
  match limit with
  | none => events
  | some n => if n = 0 then events else events.take n.toNat

/-- One list of the answers of several sources. -/
def run (limit : Option UInt64) (batches : List (Except RelayError (List Event))) : List Event :=
  cut limit (newestFirst (distinctBy Event.id [] (answered batches)))

end Gather
end EventArchive
