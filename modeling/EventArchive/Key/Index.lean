import EventArchive.Data.Distinct
import EventArchive.Event.Basic
import EventArchive.Key.TagValue

/-!
# The keys of an event

Every stored event has one key of its own, one access counter, and the keys of the indices that find
it: by identifier, by author, by kind, by both, by time, and by each indexed tag value. A time
before 1970 is held as zero.
-/
namespace EventArchive

/-- The place of a record in the archive. -/
abbrev Serial := UInt64

/-- A time as keys hold it: seconds since 1970, and zero for earlier ones. -/
def clampTime (t : Int64) : UInt64 := UInt64.ofNat t.toInt.toNat

/-- A time that was held in a key. -/
def timeOfClamped (t : UInt64) : Int64 :=
  if (t.toNat : Int) ≤ Int64.maxValue.toInt then Int64.ofInt t.toNat else Int64.maxValue

namespace FixedBytes

/-- The first eight bytes as a field of a key. -/
def headField {f : HexField} (b : FixedBytes f) : Field := ⟨.head8, ⟨b.head8, b.head8_length⟩⟩

end FixedBytes

namespace Key

/-- The key of a record. -/
def event (serial : Serial) : Bytes := write [⟨.layout .event, ()⟩, ⟨.serial, serial⟩]

/-- The key of an access counter. -/
def counter (id : EventId) (serial : Serial) : Bytes :=
  write [⟨.layout .counter, ()⟩, id.headField, ⟨.serial, serial⟩]

/-- The beginning of the identifier keys of an event. -/
def idStem (id : EventId) : Bytes := write [⟨.layout .id, ()⟩, id.headField]

/-- The key that finds a record by its identifier. -/
def id (id : EventId) (serial : Serial) : Bytes := idStem id ++ write [⟨.serial, serial⟩]

/-- The beginning of the keys in order of time. -/
def createdAtStem : Bytes := Layout.createdAt.lowerBound

/-- The beginning of the keys of a kind. -/
def kindStem (kind : Kind) : Bytes := write [⟨.layout .kind, ()⟩, ⟨.kind, kind.code⟩]

/-- The beginning of the keys of an author. -/
def pubkeyStem (pubkey : PublicKey) : Bytes := write [⟨.layout .pubkey, ()⟩, pubkey.headField]

/-- The beginning of the keys of an author and a kind. -/
def pubkeyKindStem (pubkey : PublicKey) (kind : Kind) : Bytes :=
  write [⟨.layout .pubkeyKind, ()⟩, pubkey.headField, ⟨.kind, kind.code⟩]

/-- A key that ends in a time and a serial. -/
def timed (stem : Bytes) (createdAt : Int64) (serial : Serial) : Bytes :=
  stem ++ write [⟨.timestamp, clampTime createdAt⟩, ⟨.serial, serial⟩]

/-- Longest tag value that is indexed, in bytes. -/
def maxTagValueLength : Nat := 100

/-- Whether a tag is indexed: its name has one byte and its value has between 1 and 100. -/
def indexable (name value : String) : Bool :=
  name.utf8ByteSize = 1 && 0 < value.utf8ByteSize && value.utf8ByteSize ≤ maxTagValueLength

/-- The indexed values of tags, each once, in the order of their first appearance. -/
def indexedTagValues (tags : List Tag) : List String :=
  distinct (tags.filterMap fun t => do
    let name ← t.name?
    let value ← t.value?
    if indexable name value then some value else none)

/-- The index keys that need no tags. -/
def untagged (eventId : EventId) (pubkey : PublicKey) (kind : Kind) (createdAt : Int64)
    (serial : Serial) : List Bytes :=
  [id eventId serial, timed (pubkeyStem pubkey) createdAt serial,
    timed (kindStem kind) createdAt serial, timed (pubkeyKindStem pubkey kind) createdAt serial,
    timed createdAtStem createdAt serial]

/-- The index keys of the tag values of an event. -/
def tagged (e : Event) (serial : Serial) : List Bytes :=
  (indexedTagValues e.tags).map fun v => timed (TagValue.classify v).stem e.createdAt serial

/-- Every index key of an event. -/
def index (e : Event) (serial : Serial) : List Bytes :=
  untagged e.id e.pubkey e.kind e.createdAt serial ++ tagged e serial

/-! ### Looking into a key -/

/-- The layout of a key. -/
def layout? (key : Bytes) : Option Layout := key.head?.bind Layout.ofByte?

/-- The serial in the last eight bytes of a key. -/
def serial? (key : Bytes) : Option Serial :=
  if 8 ≤ key.length then some (UInt64.ofNat (Bytes.toNatBE (key.drop (key.length - 8)))) else none

/-- The time in the eight bytes before the serial. -/
def timestamp? (key : Bytes) : Option UInt64 :=
  if 16 ≤ key.length then
    some (UInt64.ofNat (Bytes.toNatBE ((key.drop (key.length - 16)).take 8)))
  else none

end Key
end EventArchive
