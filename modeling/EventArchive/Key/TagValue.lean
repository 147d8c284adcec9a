import EventArchive.Data.Decimal
import EventArchive.Data.Hex
import EventArchive.Data.Split
import EventArchive.Key.Field

/-!
# Indexed tag values

Two shapes of tag values are stored in a shorter form: the hexadecimal text of a 32-byte key, and an
address `kind:pubkey:identifier`. Both keep only the first eight bytes of the key.
-/
namespace EventArchive

/-- The form in which the index holds a tag value. -/
inductive TagValue where
  /-- A key of 32 bytes. -/
  | key32 (head : { bytes : Bytes // bytes.length = 8 })
  | address (kind : UInt16) (head : { bytes : Bytes // bytes.length = 8 }) (identifier : Bytes)
  /-- Any other text, as it is. -/
  | raw (value : Bytes)
  deriving DecidableEq

namespace TagValue

/-- The first eight bytes of a key written as 64 hexadecimal digits. -/
def keyHead? (text : Bytes) : Option { bytes : Bytes // bytes.length = 8 } :=
  if text.length = 64 then
    match Hex.decode text with
    | .ok bytes =>
      if h : (bytes.take 8).length = 8 then some ⟨bytes.take 8, h⟩ else none
    | .error _ => none
  else none

/-- The address that a text writes, if it has three parts, a kind and a key. -/
def address? (text : String) : Option TagValue :=
  match splitAt ':' text.toList with
  | [kind, pubkey, identifier] => do
    let kind ← Decimal.readBounded 65535 kind
    let head ← keyHead? (Bytes.ofText (String.ofList pubkey))
    return .address (UInt16.ofNat kind) head (Bytes.ofText (String.ofList identifier))
  | _ => none

/-- The form of a tag value. -/
def classify (text : String) : TagValue :=
  match keyHead? (Bytes.ofText text) with
  | some head => .key32 head
  | none => (address? text).getD (.raw (Bytes.ofText text))

/-- The index that holds a value. -/
def layout : TagValue → Layout
  | .key32 _ => .tag32
  | .address .. => .tagAddress
  | .raw _ => .tag

/-- The fields of a key before its time. -/
def fields : TagValue → List Field
  | .key32 head => [⟨.layout .tag32, ()⟩, ⟨.head8, head⟩]
  | .address kind head identifier =>
    [⟨.layout .tagAddress, ()⟩, ⟨.kind, kind⟩, ⟨.head8, head⟩, ⟨.rest, identifier⟩]
  | .raw value => [⟨.layout .tag, ()⟩, ⟨.rest, value⟩]

/-- The beginning of the keys of a value. -/
def stem (v : TagValue) : Bytes := Key.write v.fields

end TagValue
end EventArchive
