import EventArchive.Data.Varint
import EventArchive.Event.Basic

/-!
# Stored records

The value of an event key is either the whole event or, once it has been demoted, its bare
identifier. Both begin with the 32 bytes of the identifier, and the whole event is always longer.
-/
namespace EventArchive

/-- Why a value is no record. -/
inductive Corruption where
  /-- Fewer bytes than an identifier has. -/
  | tooShort (actual : Nat)
  /-- The bytes end inside the record. -/
  | ended
  | badVarint
  | badText
  | badSignature (actual : Nat)
  deriving DecidableEq, Repr

/-- The text of the error. -/
def Corruption.message : Corruption → String
  | .tooShort actual =>
    "event value of " ++ toString actual ++ " bytes is shorter than a stub"
  | .ended => "Hit the end of buffer, expected more data"
  | .badVarint =>
    "Found a varint that didn't terminate. Is the usize too big for this platform?"
  | .badText => "Tried to parse invalid utf-8"
  | .badSignature actual => (FormatError.length .sig actual).message

/-- The value of an event key. -/
inductive StoredValue where
  | full (event : Event)
  /-- A demoted event, of which the identifier is left. -/
  | stub (id : EventId)
  deriving DecidableEq

namespace StoredValue

/-- Length of the value of a demoted event. -/
def stubLength : Nat := 32

/-! ### Writing -/

/-- A text after its length in bytes. -/
def writeText (s : String) : Bytes :=
  let bytes := Bytes.ofText s
  Varint.encode bytes.length ++ bytes

/-- A list after its length. -/
def writeList {α : Type} (item : α → Bytes) (values : List α) : Bytes :=
  Varint.encode values.length ++ values.flatMap item

/-- The bytes of a whole event. -/
def encode (e : Event) : Bytes :=
  e.id.bytes ++ e.pubkey.bytes ++ Varint.encode (Varint.zigzag e.createdAt.toInt)
    ++ Varint.encode e.kind.code.toNat
    ++ writeList (fun t : Tag => writeList writeText t.parts) e.tags
    ++ writeText e.content
    ++ Varint.encode e.sig.bytes.length ++ e.sig.bytes

/-! ### Reading -/

/-- Takes a part of a record off the front of its bytes. -/
abbrev Decoder (α : Type) := Bytes → Except Corruption (α × Bytes)

/-- A number of at most `bits` bits. -/
def readVarint (bits : Nat) : Decoder Nat := fun bytes =>
  match Varint.decode bits bytes with
  | .ok r => .ok r
  | .error .ended => .error .ended
  | .error .unterminated => .error .badVarint

/-- A given number of bytes. -/
def readBytes (n : Nat) : Decoder Bytes := fun bytes =>
  if n ≤ bytes.length then .ok (bytes.take n, bytes.drop n) else .error .ended

/-- A binary field of an event. -/
def readFixed (f : HexField) : Decoder (FixedBytes f) := fun bytes =>
  if h : (bytes.take f.size).length = f.size then
    .ok (⟨bytes.take f.size, h⟩, bytes.drop f.size)
  else .error .ended

/-- A text after its length. -/
def readText : Decoder String := fun bytes => do
  let (n, bytes) ← readVarint 64 bytes
  let (raw, bytes) ← readBytes n bytes
  match Bytes.toText? raw with
  | some s => return (s, bytes)
  | none => throw .badText

/-- A given number of values. Each takes at least one byte, so the bytes bound the steps. -/
def readMany {α : Type} (item : Decoder α) : (fuel count : Nat) → Decoder (List α)
  | _, 0, bytes => .ok ([], bytes)
  | 0, _ + 1, _ => .error .ended
  | fuel + 1, count + 1, bytes => do
    let (a, bytes) ← item bytes
    let (as, bytes) ← readMany item fuel count bytes
    return (a :: as, bytes)

/-- A list after its length. -/
def readList {α : Type} (item : Decoder α) : Decoder (List α) := fun bytes => do
  let (n, bytes) ← readVarint 64 bytes
  readMany item (bytes.length + 1) n bytes

/-- The tags of an event. -/
def readTags : Decoder (List Tag) :=
  readList fun bytes => do
    let (parts, bytes) ← readList readText bytes
    return (⟨parts⟩, bytes)

/-- A whole event; the bytes after it are left. -/
def readEvent : Decoder Event := fun bytes => do
  let (id, bytes) ← readFixed .id bytes
  let (pubkey, bytes) ← readFixed .pubkey bytes
  let (createdAt, bytes) ← readVarint 64 bytes
  let (kind, bytes) ← readVarint 16 bytes
  let (tags, bytes) ← readTags bytes
  let (content, bytes) ← readText bytes
  let (n, bytes) ← readVarint 64 bytes
  let (raw, bytes) ← readBytes n bytes
  if h : raw.length = HexField.size .sig then
    return (⟨id, pubkey, Int64.ofInt (Varint.unzigzag createdAt), ⟨UInt16.ofNat kind⟩, tags,
      content, ⟨raw, h⟩⟩, bytes)
  else throw (.badSignature raw.length)

/-- The record that a value holds. Bytes after a whole event are passed over. -/
def decode (bytes : Bytes) : Except Corruption StoredValue :=
  if h : bytes.length = HexField.size .id then .ok (.stub ⟨bytes, h⟩)
  else if bytes.length < stubLength then .error (.tooShort bytes.length)
  else (readEvent bytes).map fun r => .full r.1

/-- The identifier a value begins with. -/
def idBytes? (bytes : Bytes) : Option Bytes :=
  if stubLength ≤ bytes.length then some (bytes.take stubLength) else none

/-- Whether a value is that of a demoted event. -/
def isStub (bytes : Bytes) : Bool := bytes.length == stubLength

end StoredValue
end EventArchive
