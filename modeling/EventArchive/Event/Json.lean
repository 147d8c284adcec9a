import EventArchive.Event.Basic
import EventArchive.Json.Printer
import EventArchive.Json.Value

/-!
# Events as JSON

An event is written as an object of its seven fields in a fixed order. It is read from an object
whose members may come in any order and may be joined by others, which are passed over, or from a
list of the seven values.
-/
namespace EventArchive

open Json

/-- A binary field in hexadecimal. -/
def FixedBytes.reader (f : HexField) : Reader (FixedBytes f) := refine text FixedBytes.ofHex

/-- The JSON text of a binary field. -/
def FixedBytes.write {f : HexField} (b : FixedBytes f) : List Char := writeText b.toHex

/-- A kind. -/
def Kind.reader : Reader Kind := fun cs => do
  let (n, cs) ← integer 0 65535 cs
  return (⟨UInt16.ofNat n.toNat⟩, cs)

/-- A signed number of 64 bits. -/
def int64Reader : Reader Int64 := fun cs => do
  let (n, cs) ← integer Int64.minValue.toInt Int64.maxValue.toInt cs
  return (Int64.ofInt n, cs)

/-- A tag. -/
def Tag.reader : Reader Tag := fun cs => do
  let (parts, cs) ← list text cs
  return (⟨parts⟩, cs)

/-- The JSON text of a tag. -/
def Tag.write (t : Tag) : List Char := writeList (t.parts.map writeText)

namespace Event

/-- The fields of an event of which some have been read. -/
structure Draft where
  id : Option EventId
  pubkey : Option PublicKey
  createdAt : Option Int64
  kind : Option Kind
  tags : Option (List Tag)
  content : Option String
  sig : Option Signature

/-- No field has been read. -/
def Draft.blank : Draft := ⟨none, none, none, none, none, none, none⟩

/-- Read the value under a key. -/
def Draft.step (d : Draft) (key : String) : Reader Draft :=
  if key = "id" then once d.id (FixedBytes.reader .id) fun a => { d with id := some a }
  else if key = "pubkey" then
    once d.pubkey (FixedBytes.reader .pubkey) fun a => { d with pubkey := some a }
  else if key = "created_at" then
    once d.createdAt int64Reader fun a => { d with createdAt := some a }
  else if key = "kind" then once d.kind Kind.reader fun a => { d with kind := some a }
  else if key = "tags" then once d.tags (list Tag.reader) fun a => { d with tags := some a }
  else if key = "content" then once d.content text fun a => { d with content := some a }
  else if key = "sig" then once d.sig (FixedBytes.reader .sig) fun a => { d with sig := some a }
  else valueOf fun cs => do
    let cs ← skipValue cs
    return (d, cs)

/-- The event, if every field has been read. -/
def Draft.event? (d : Draft) : Option Event := do
  return ⟨← d.id, ← d.pubkey, ← d.createdAt, ← d.kind, ← d.tags, ← d.content, ← d.sig⟩

/-- One of the values of the list form; `first` says that no comma comes before it. -/
def element {α : Type} (first : Bool) (item : Reader α) : Reader α := fun cs =>
  match skipBlanks cs with
  | [] => .error .ended
  | ']' :: _ => .error (.unfit none)
  | ',' :: cs =>
    if first then item (',' :: cs)
    else match skipBlanks cs with
      | [] => .error .ended
      | ']' :: _ => .error .malformed
      | cs => item cs
  | cs => if first then item cs else .error .malformed

/-- The end of the list form. -/
def endOfList : List Char → Except ReadError (List Char) := fun cs =>
  match skipBlanks cs with
  | [] => .error .ended
  | ']' :: cs => .ok cs
  | _ :: _ => .error .malformed

/-- The list form, after its opening bracket. -/
def ofList : Reader Event := fun cs => do
  let (id, cs) ← element true (FixedBytes.reader .id) cs
  let (pubkey, cs) ← element false (FixedBytes.reader .pubkey) cs
  let (createdAt, cs) ← element false int64Reader cs
  let (kind, cs) ← element false Kind.reader cs
  let (tags, cs) ← element false (list Tag.reader) cs
  let (content, cs) ← element false text cs
  let (sig, cs) ← element false (FixedBytes.reader .sig) cs
  let cs ← endOfList cs
  return (⟨id, pubkey, createdAt, kind, tags, content, sig⟩, cs)

/-- An event in either form. -/
def reader : Reader Event := fun cs =>
  match skipBlanks cs with
  | '\x7b' :: cs => do
    let (d, cs) ← members Draft.step Draft.blank cs
    match d.event? with
    | some e => return (e, cs)
    | none => throw (.unfit none)
  | '[' :: cs => ofList cs
  | cs => .error (shapeError cs)

/-- The event written in a text. -/
def ofJson (s : String) : Except ReadError Event := readText reader s

/-- The seven fields in the order in which they are written. -/
def fields (e : Event) : List (String × List Char) :=
  [("id", e.id.write), ("pubkey", e.pubkey.write), ("created_at", writeInt e.createdAt.toInt),
    ("kind", writeInt e.kind.code.toNat), ("tags", writeList (e.tags.map Tag.write)),
    ("content", writeText e.content), ("sig", e.sig.write)]

/-- The JSON text of an event. -/
def toJson (e : Event) : String := String.ofList (writeObject e.fields)

/-- The JSON text of the list form of an event. -/
def toJsonList (e : Event) : String := String.ofList (writeList (e.fields.map (·.2)))

end Event
end EventArchive
