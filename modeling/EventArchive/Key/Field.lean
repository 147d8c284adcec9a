import EventArchive.Key.Layout

/-!
# Fields of a key

A key, and the value of a counter, is a sequence of fields. Numbers take a fixed number of bytes,
most significant first. One field may take any number of bytes: it has what the others leave, so a
sequence with two such fields has no reading.
-/
namespace EventArchive

/-- Why bytes are no key of the wanted fields. -/
inductive KeyError where
  /-- Fewer bytes than the fields of fixed width take. -/
  | truncated (fixed actual : Nat)
  /-- Bytes are left, and no field takes them. -/
  | trailing (count : Nat)
  | unknownLayout (byte : UInt8)
  | wrongLayout (expected found : Layout)
  /-- More than one field of any width was asked for. -/
  | ambiguous (count : Nat)
  deriving DecidableEq, Repr

/-- The text of the error. -/
def KeyError.message : KeyError → String
  | .truncated fixed actual =>
    "key of " ++ toString actual ++ " bytes is shorter than the " ++ toString fixed
      ++ " fixed bytes of its layout"
  | .trailing count =>
    "key has " ++ toString count ++ " trailing bytes and its layout has no arbitrary field"
  | .unknownLayout byte => "unknown index kind byte " ++ toString byte.toNat
  | .wrongLayout expected found =>
    "expected index kind " ++ expected.name ++ ", found " ++ found.name
  | .ambiguous count => "key layout declares " ++ toString count ++ " arbitrary-length fields"

/-- The types of fields. -/
inductive FieldType where
  /-- The first byte of a key of a known layout. -/
  | layout (expected : Layout)
  /-- The first eight bytes of an identifier or of a public key. -/
  | head8
  | kind
  | timestamp
  | serial
  | size
  /-- Any number of bytes. -/
  | rest
  deriving DecidableEq, Repr

namespace FieldType

/-- The values of a type. -/
def Value : FieldType → Type
  | .layout _ => Unit
  | .head8 => { bytes : Bytes // bytes.length = 8 }
  | .kind => UInt16
  | .timestamp => UInt64
  | .serial => UInt64
  | .size => UInt32
  | .rest => Bytes

/-- Number of bytes, if it is fixed. -/
def width? : FieldType → Option Nat
  | .layout _ => some 1
  | .head8 => some 8
  | .kind => some 2
  | .timestamp => some 8
  | .serial => some 8
  | .size => some 4
  | .rest => none

/-- The bytes of a value. -/
def write : (t : FieldType) → t.Value → Bytes
  | .layout expected, _ => [expected.byte]
  | .head8, v => v.val
  | .kind, (v : UInt16) => Bytes.bigEndian 2 v.toNat
  | .timestamp, (v : UInt64) => Bytes.bigEndian 8 v.toNat
  | .serial, (v : UInt64) => Bytes.bigEndian 8 v.toNat
  | .size, (v : UInt32) => Bytes.bigEndian 4 v.toNat
  | .rest, (v : Bytes) => v

/-- A number of a fixed width. -/
def readNumber (width : Nat) (bytes : Bytes) : Except KeyError Nat :=
  if bytes.length = width then .ok (Bytes.toNatBE bytes)
  else .error (.truncated width bytes.length)

/-- Read a value from exactly the bytes that belong to it. -/
def read : (t : FieldType) → Bytes → Except KeyError t.Value
  | .layout expected, bytes =>
    match bytes with
    | [b] =>
      match Layout.ofByte? b with
      | some found => if found = expected then .ok () else .error (.wrongLayout expected found)
      | none => .error (.unknownLayout b)
    | _ => .error (.truncated 1 bytes.length)
  | .head8, bytes =>
    if h : bytes.length = 8 then .ok ⟨bytes, h⟩ else .error (.truncated 8 bytes.length)
  | .kind, bytes => (readNumber 2 bytes).map UInt16.ofNat
  | .timestamp, bytes => (readNumber 8 bytes).map UInt64.ofNat
  | .serial, bytes => (readNumber 8 bytes).map UInt64.ofNat
  | .size, bytes => (readNumber 4 bytes).map UInt32.ofNat
  | .rest, bytes => .ok bytes

end FieldType

/-- A field with its value. -/
structure Field where
  type : FieldType
  value : type.Value

namespace Field

/-- The bytes of a field. -/
def write (f : Field) : Bytes := f.type.write f.value

end Field

namespace Key

/-- The bytes of a sequence of fields. -/
def write (fields : List Field) : Bytes := fields.flatMap Field.write

/-- Bytes that the fields of fixed width take together. -/
def fixedWidth (types : List FieldType) : Nat := (types.filterMap FieldType.width?).foldr (· + ·) 0

/-- Number of fields of any width. -/
def arbitraryCount (types : List FieldType) : Nat :=
  (types.filter fun t => t.width?.isNone).length

/-- Cut the bytes between the fields; a field of any width takes `spare` bytes. -/
def readFields (spare : Nat) : List FieldType → Bytes → Except KeyError (List Field)
  | [], _ => .ok []
  | t :: types, bytes => do
    let width := t.width?.getD spare
    let v ← t.read (bytes.take width)
    let fields ← readFields spare types (bytes.drop width)
    return ⟨t, v⟩ :: fields

/-- Read a whole key as a sequence of fields. -/
def read (types : List FieldType) (key : Bytes) : Except KeyError (List Field) :=
  let arbitrary := arbitraryCount types
  let fixed := fixedWidth types
  if 1 < arbitrary then .error (.ambiguous arbitrary)
  else if key.length < fixed then .error (.truncated fixed key.length)
  else if arbitrary = 0 ∧ fixed < key.length then .error (.trailing (key.length - fixed))
  else readFields (key.length - fixed) types key

end Key
end EventArchive
