import EventArchive.Event.Error

/-!
# Events

An event is a signed, timestamped record that never changes: an identifier, the author's key, the
time of its creation, a kind, tags, a content and a signature. The kind alone decides how long an
archive keeps an event, and `Event.slot?` names the place that at most one event is meant to hold.
-/
namespace EventArchive

/-! ### Binary fields -/

/-- The bytes of a binary field of an event. -/
structure FixedBytes (f : HexField) where
  bytes : Bytes
  length_eq : bytes.length = f.size
  deriving DecidableEq

/-- Names an event: the hash of its contents. -/
abbrev EventId := FixedBytes .id
/-- Names an author. -/
abbrev PublicKey := FixedBytes .pubkey
/-- The author's signature. -/
abbrev Signature := FixedBytes .sig

namespace FixedBytes
variable {f : HexField}

/-- The field of given bytes, if their number is right. -/
def ofBytes (bytes : Bytes) : Except FormatError (FixedBytes f) :=
  if h : bytes.length = f.size then .ok ⟨bytes, h⟩ else .error (.length f bytes.length)

/-- The field written in hexadecimal. -/
def ofHex (text : String) : Except FormatError (FixedBytes f) :=
  match Hex.decodeText text with
  | .ok bytes => ofBytes bytes
  | .error e => .error (.hex e)

/-- The hexadecimal text of a field. -/
def toHex (b : FixedBytes f) : String := Hex.encodeText b.bytes

/-- The text that shows a field in diagnostics. -/
def describe (b : FixedBytes f) : String := f.title ++ "(" ++ b.toHex ++ ")"

/-- The first eight bytes, which stand for the field in keys. -/
def head8 (b : FixedBytes f) : Bytes := b.bytes.take 8

instance : Ord (FixedBytes f) := ⟨fun a b => compare a.bytes b.bytes⟩

theorem head8_length (b : FixedBytes f) : b.head8.length = 8 := by
  have h := b.length_eq
  have hsize : 8 ≤ f.size := by cases f <;> decide
  simp [head8, h, hsize]

end FixedBytes

/-! ### Kinds -/

/-- The category of an event. -/
structure Kind where
  code : UInt16
  deriving DecidableEq, Repr

/-- How an archive treats a kind. -/
inductive Retention where
  /-- Every event is kept. -/
  | regular
  /-- One event for each author. -/
  | replaceable
  /-- Never stored. -/
  | ephemeral
  /-- One event for each author and identifier. -/
  | parameterized
  deriving DecidableEq, Repr

namespace Kind

/-- The treatment of a kind, by the range its number is in. -/
def retention (k : Kind) : Retention :=
  let n := k.code.toNat
  if n = 0 ∨ n = 3 ∨ (10000 ≤ n ∧ n < 20000) then .replaceable
  else if 20000 ≤ n ∧ n < 30000 then .ephemeral
  else if 30000 ≤ n ∧ n < 40000 then .parameterized
  else .regular

/-- The number of a kind as text. -/
def describe (k : Kind) : String := String.ofList (Nat.toDigits 10 k.code.toNat)

end Kind

/-! ### Tags and events -/

/-- A name followed by values. -/
structure Tag where
  parts : List String
  deriving DecidableEq, Repr

namespace Tag

/-- The first part. -/
def name? (t : Tag) : Option String := t.parts[0]?

/-- The part after the name. -/
def value? (t : Tag) : Option String := t.parts[1]?

end Tag

/-- A signed record. -/
structure Event where
  id : EventId
  pubkey : PublicKey
  createdAt : Int64
  kind : Kind
  tags : List Tag
  content : String
  sig : Signature
  deriving DecidableEq

/-- Whether the first of two versions gives way to the second: it is earlier, or of the same time
and of a greater identifier. -/
def isOlder (createdAt : Int64) (id : EventId) (otherCreatedAt : Int64) (otherId : EventId) :
    Bool :=
  createdAt < otherCreatedAt || (createdAt == otherCreatedAt && compare id otherId == .gt)

/-- The place of a replaceable event: an author, a kind and, for parameterized kinds, the
identifier of the `d` tag. -/
structure Slot where
  pubkey : PublicKey
  kind : Kind
  identifier : Option String
  deriving DecidableEq

namespace Event

/-- The value of the first `d` tag; such a tag without a value has the empty identifier. -/
def identifier? (e : Event) : Option String :=
  (e.tags.find? fun t => t.name? == some "d").map fun t => t.value?.getD ""

/-- Whether an event gives way to another one. -/
def isOlderThan (e other : Event) : Bool :=
  EventArchive.isOlder e.createdAt e.id other.createdAt other.id

/-- The values of the tags of a name, in order. -/
def tagValues (e : Event) (name : String) : List String :=
  (e.tags.filter fun t => t.name? == some name).filterMap Tag.value?

/-- The place an event competes for. A parameterized event without a `d` tag competes for none. -/
def slot? (e : Event) : Option Slot :=
  match e.kind.retention with
  | .replaceable => some ⟨e.pubkey, e.kind, none⟩
  | .parameterized => e.identifier?.map fun d => ⟨e.pubkey, e.kind, some d⟩
  | .regular | .ephemeral => none

end Event
end EventArchive
