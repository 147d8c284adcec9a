import EventArchive.Event.Basic

/-!
# Query hits

A query delivers a whole event, or what is left of a demoted one: its identifier and the time that
the index holds.
-/
namespace EventArchive

/-- What a query delivers. -/
inductive Record where
  | full (event : Event)
  /-- A demoted event. The time comes from the index, and is zero if the index holds none. -/
  | stub (id : EventId) (createdAt : Int64)
  deriving DecidableEq

namespace Record

/-- The identifier of the event. -/
def id : Record → EventId
  | .full e => e.id
  | .stub id _ => id

/-- The time of the event. -/
def createdAt : Record → Int64
  | .full e => e.createdAt
  | .stub _ t => t

/-- Whether the event is demoted. -/
def isStub : Record → Bool
  | .full _ => false
  | .stub .. => true

/-- The event, if it is whole. -/
def event? : Record → Option Event
  | .full e => some e
  | .stub .. => none

end Record
end EventArchive
