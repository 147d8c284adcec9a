import EventArchive.Data.SortedMap
import EventArchive.Event.Basic

/-!
# Filters

A filter is a conjunction of dimensions; within a dimension any listed value will do. A dimension
without values does not constrain, except that a tag name with an empty list can match nothing.
-/
namespace EventArchive

/-- A query for events. -/
structure Filter where
  ids : List EventId
  kinds : List Kind
  authors : List PublicKey
  /-- Accepted values for each tag name of one character. -/
  tags : SortedMap Char (List String)
  /-- The earliest time. -/
  since : Option Int64
  /-- The latest time. -/
  till : Option Int64
  /-- The largest number of results. -/
  limit : Option UInt64
  deriving DecidableEq

namespace Filter

/-- The filter without constraints. -/
def any : Filter := ⟨[], [], [], ∅, none, none, none⟩

instance : Inhabited Filter := ⟨any⟩

/-! ### Adding constraints -/

/-- Accept further identifiers. -/
def withIds (f : Filter) (ids : List EventId) : Filter := { f with ids := f.ids ++ ids }

/-- Accept further kinds. -/
def withKinds (f : Filter) (kinds : List Kind) : Filter := { f with kinds := f.kinds ++ kinds }

/-- Accept further authors. -/
def withAuthors (f : Filter) (authors : List PublicKey) : Filter :=
  { f with authors := f.authors ++ authors }

/-- Accept further values of a tag. -/
def withTag (f : Filter) (name : Char) (values : List String) : Filter :=
  { f with tags := f.tags.insert name ((f.tags.get? name).getD [] ++ values) }

/-- Accept events from a time on. -/
def withSince (f : Filter) (t : Int64) : Filter := { f with since := some t }

/-- Accept events up to a time. -/
def withTill (f : Filter) (t : Int64) : Filter := { f with till := some t }

/-- Ask for a number of results. -/
def withLimit (f : Filter) (n : UInt64) : Filter := { f with limit := some n }

/-! ### Meaning -/

/-- Whether no dimension constrains the result. -/
def isUnconstrained (f : Filter) : Bool :=
  f.ids.isEmpty && f.kinds.isEmpty && f.authors.isEmpty && f.tags.isEmpty && f.since.isNone
    && f.till.isNone

/-- Whether a dimension accepts a value; without values it accepts all. -/
def accepts {α : Type} [BEq α] (accepted : List α) (a : α) : Bool :=
  accepted.isEmpty || accepted.contains a

/-- Whether some tag of the name has one of the accepted values. -/
def acceptsTag (e : Event) (name : Char) (accepted : List String) : Bool :=
  (e.tagValues (String.singleton name)).any accepted.contains

/-- Whether an event satisfies every dimension. -/
def isMatch (f : Filter) (e : Event) : Bool :=
  accepts f.ids e.id && accepts f.kinds e.kind && accepts f.authors e.pubkey
    && f.tags.entries.all (fun t => acceptsTag e t.1 t.2)
    && f.since.all (· ≤ e.createdAt) && f.till.all (e.createdAt ≤ ·)

/-- Whether a demoted event may satisfy the filter. Only its identifier is known; the index entry
that led to it speaks for the rest. -/
def isStubMatch (f : Filter) (id : EventId) : Bool := accepts f.ids id

end Filter
end EventArchive
