import EventArchive.Data.Bytes

/-!
# Key layouts

One ordered key space holds the events, their indices and their access counters. The first byte of
a key names its layout:

```text
event       [0][serial]                                    record, or the id of a demoted one
createdAt   [1][time][serial]
id          [2][id: 8][serial]
kind        [3][kind][time][serial]
pubkey      [4][pubkey: 8][time][serial]
pubkeyKind  [5][pubkey: 8][kind][time][serial]
tag         [6][value][time][serial]
tag32       [7][key: 8][time][serial]
tagAddress  [8][kind][pubkey: 8][identifier][time][serial]
counter     [9][id: 8][serial]                             last access and size
```

The keys of an index have no value. The time stands right before the serial, so walking the keys of
one beginning backwards meets the newest first.
-/
namespace EventArchive

/-- What the first byte of a key says about the rest of it. -/
inductive Layout where
  | event
  | createdAt
  | id
  | kind
  | pubkey
  | pubkeyKind
  | tag
  | tag32
  | tagAddress
  | counter
  deriving DecidableEq, Repr

namespace Layout

/-- Every layout, in the order of their bytes. -/
def all : List Layout :=
  [.event, .createdAt, .id, .kind, .pubkey, .pubkeyKind, .tag, .tag32, .tagAddress, .counter]

/-- The first byte of the keys of a layout. -/
def byte : Layout → UInt8
  | .event => 0
  | .createdAt => 1
  | .id => 2
  | .kind => 3
  | .pubkey => 4
  | .pubkeyKind => 5
  | .tag => 6
  | .tag32 => 7
  | .tagAddress => 8
  | .counter => 9

/-- The layout of a first byte. -/
def ofByte? (b : UInt8) : Option Layout := all[b.toNat]?

/-- The name of a layout. -/
def name : Layout → String
  | .event => "Event"
  | .createdAt => "CreatedAt"
  | .id => "Id"
  | .kind => "Kind"
  | .pubkey => "Pubkey"
  | .pubkeyKind => "PubkeyKind"
  | .tag => "Tag"
  | .tag32 => "Tag32"
  | .tagAddress => "TagAddr"
  | .counter => "Counter"

/-- Whether the keys of a layout hold a time. -/
def hasTimestamp : Layout → Bool
  | .event | .id | .counter => false
  | _ => true

/-- Whether the keys of a layout point to a record. -/
def isSecondary : Layout → Bool
  | .event | .counter => false
  | _ => true

/-- The smallest key of a layout. -/
def lowerBound (l : Layout) : Bytes := [l.byte]

/-- The smallest key beyond every key of a layout. -/
def upperBound (l : Layout) : Bytes := [l.byte + 1]

theorem ofByte?_byte (l : Layout) : ofByte? l.byte = some l := by
  cases l <;> rfl

end Layout
end EventArchive
