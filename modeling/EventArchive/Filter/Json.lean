import EventArchive.Event.Json
import EventArchive.Filter.Basic

/-!
# Filters as JSON

A filter is an object. The values of a tag stand under a key of two characters, a hash sign and the
name of the tag. Members of other names are passed over; dimensions without values are not written,
except for tags. A member given twice is refused, unless it is a tag, of which the last one stands.
-/
namespace EventArchive

open Json

namespace Filter

/-- The members of a filter that have been read, with the values of unknown members. -/
structure Draft where
  ids : Option (List EventId)
  kinds : Option (List Kind)
  authors : Option (List PublicKey)
  since : Option (Option Int64)
  till : Option (Option Int64)
  limit : Option (Option UInt64)
  others : SortedMap String Value

/-- No member has been read. -/
def Draft.blank : Draft := ⟨none, none, none, none, none, none, ∅⟩

/-- An unsigned number of 64 bits. -/
def uint64Reader : Reader UInt64 := fun cs => do
  let (n, cs) ← integer 0 (UInt64.size - 1) cs
  return (UInt64.ofNat n.toNat, cs)

/-- Read the value under a key. -/
def Draft.step (d : Draft) (key : String) : Reader Draft :=
  if key = "ids" then once d.ids (list (FixedBytes.reader .id)) fun a => { d with ids := some a }
  else if key = "kinds" then once d.kinds (list Kind.reader) fun a => { d with kinds := some a }
  else if key = "authors" then
    once d.authors (list (FixedBytes.reader .pubkey)) fun a => { d with authors := some a }
  else if key = "since" then
    once d.since (optional int64Reader) fun a => { d with since := some a }
  else if key = "until" then
    once d.till (optional int64Reader) fun a => { d with till := some a }
  else if key = "limit" then
    once d.limit (optional uint64Reader) fun a => { d with limit := some a }
  else valueOf fun cs => do
    let (v, cs) ← readValue 1 cs
    return ({ d with others := d.others.insert key v }, cs)

/-- The tag name that a key stands for. -/
def tagName? (key : String) : Option Char :=
  match key.toList with
  | ['#', name] => some name
  | _ => none

/-- The tag constraints among the unknown members, in the order of their keys. -/
def tagsOf : List (String × Value) → Except FormatError (SortedMap Char (List String))
  | [] => .ok ∅
  | (key, value) :: rest =>
    match tagName? key with
    | none => tagsOf rest
    | some name =>
      match value.texts? with
      | none => .error (.filter ("tag filter " ++ key ++ " must be a string list"))
      | some values => (tagsOf rest).map (·.insert name values)

/-- The filter that has been read. -/
def Draft.filter (d : Draft) : Except FormatError Filter := do
  return { ids := d.ids.getD [], kinds := d.kinds.getD [], authors := d.authors.getD []
           tags := ← tagsOf d.others.entries
           since := d.since.getD none, till := d.till.getD none, limit := d.limit.getD none }

/-- A filter. -/
def reader : Reader Filter := fun cs =>
  match skipBlanks cs with
  | '\x7b' :: cs => refine (members Draft.step Draft.blank) Draft.filter cs
  | cs => .error (shapeError cs)

/-- The filter written in a text. -/
def ofJson (s : String) : Except ReadError Filter := readText reader s

/-- A member for a dimension with values. -/
def member {α : Type} (name : String) (write : α → List Char) (values : List α) :
    List (String × List Char) :=
  if values.isEmpty then [] else [(name, writeList (values.map write))]

/-- The members of a filter in the order in which they are written. -/
def fields (f : Filter) : List (String × List Char) :=
  member "ids" FixedBytes.write f.ids
    ++ member "kinds" (fun k => writeInt k.code.toNat) f.kinds
    ++ member "authors" FixedBytes.write f.authors
    ++ (f.since.toList.map fun t => ("since", writeInt t.toInt))
    ++ (f.till.toList.map fun t => ("until", writeInt t.toInt))
    ++ (f.limit.toList.map fun n => ("limit", writeInt n.toNat))
    ++ (f.tags.entries.map fun t =>
      (String.ofList ['#', t.1], writeList (t.2.map writeText)))

/-- The JSON text of a filter. -/
def toJson (f : Filter) : String := String.ofList (writeObject f.fields)

end Filter
end EventArchive
