import EventArchive.Data.Hex

/-!
# Errors of events and filters

What can be wrong with an identifier, a key, a signature or a filter, before any store is asked.
-/
namespace EventArchive

/-- The fixed-size binary fields of an event, each written as hexadecimal text. -/
inductive HexField where
  | id
  | pubkey
  | sig
  deriving DecidableEq, Repr

namespace HexField

/-- Number of bytes. -/
def size : HexField → Nat
  | .id => 32
  | .pubkey => 32
  | .sig => 64

/-- The name of the field in an event. -/
def name : HexField → String
  | .id => "id"
  | .pubkey => "pubkey"
  | .sig => "sig"

/-- The name shown around a value in diagnostics. -/
def title : HexField → String
  | .id => "EventId"
  | .pubkey => "PublicKey"
  | .sig => "Signature"

end HexField

/-- Why a part of an event or of a filter is refused. -/
inductive FormatError where
  | hex (cause : HexError)
  | length (field : HexField) (actual : Nat)
  | filter (reason : String)
  deriving DecidableEq, Repr

/-- The text of the error. -/
def FormatError.message : FormatError → String
  | .hex cause => "Invalid hex: " ++ cause.message
  | .length field actual =>
    "Invalid length for " ++ field.name ++ ": expected " ++ toString field.size ++ " bytes, got "
      ++ toString actual
  | .filter reason => "Invalid filter: " ++ reason

end EventArchive
