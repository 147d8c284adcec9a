import EventArchive.Data.Bytes

/-!
# Hexadecimal text

Two digits for each byte. Writing uses lower case; reading takes either case, wants an even number
of digits, and names the first byte that is no digit. The text is read as UTF-8, so a position
counts bytes and a character outside ASCII is reported by its first byte.
-/
namespace EventArchive

/-- Why a text is no hexadecimal. -/
inductive HexError where
  | oddLength
  | badDigit (byte : UInt8) (position : Nat)
  deriving DecidableEq, Repr

namespace Hex

/-- The lower-case digit of a number below sixteen. -/
def digit (n : Nat) : Char :=
  if n < 10 then Char.ofNat (48 + n) else Char.ofNat (87 + n)

/-- The value of a digit, given as a byte of ASCII. -/
def digitValue? (b : UInt8) : Option Nat :=
  let n := b.toNat
  if 48 ≤ n ∧ n ≤ 57 then some (n - 48)
  else if 97 ≤ n ∧ n ≤ 102 then some (n - 87)
  else if 65 ≤ n ∧ n ≤ 70 then some (n - 55)
  else none

/-- The digits of a byte string. -/
def encode : Bytes → List Char
  | [] => []
  | b :: rest => digit (b.toNat / 16) :: digit (b.toNat % 16) :: encode rest

/-- The digits of a byte string, as a text. -/
def encodeText (bytes : Bytes) : String := String.ofList (encode bytes)

/-- One digit of the input, or the reason it is none. -/
def readDigit (b : UInt8) (position : Nat) : Except HexError Nat :=
  match digitValue? b with
  | some n => .ok n
  | none => .error (.badDigit b position)

/-- Read pairs of digits; `position` counts the bytes read before. -/
def decodePairs (position : Nat) : Bytes → Except HexError Bytes
  | [] => .ok []
  | [_] => .error .oddLength
  | high :: low :: rest => do
    let h ← readDigit high position
    let l ← readDigit low (position + 1)
    let tail ← decodePairs (position + 2) rest
    return UInt8.ofNat (16 * h + l) :: tail

/-- Read the ASCII bytes of a hexadecimal text. The length is looked at first. -/
def decode (text : Bytes) : Except HexError Bytes :=
  if text.length % 2 = 1 then .error .oddLength else decodePairs 0 text

/-- Read a hexadecimal text. -/
def decodeText (text : String) : Except HexError Bytes := decode (Bytes.ofText text)

end Hex

/-- The character of a code point below 256 as it is quoted in an error text: control characters
and the two invisible ones of the upper half by their number, quotes and backslashes escaped. -/
def quotedLatin1 (b : UInt8) : String :=
  let n := b.toNat
  if n = 0 then "\\0"
  else if n = 9 then "\\t"
  else if n = 10 then "\\n"
  else if n = 13 then "\\r"
  else if n = 39 then "\\'"
  else if n = 92 then "\\\\"
  else if n < 32 ∨ (127 ≤ n ∧ n ≤ 160) ∨ n = 173 then
    "\\u\x7b" ++ String.ofList (Nat.toDigits 16 n) ++ "\x7d"
  else String.singleton (Char.ofNat n)

namespace HexError

/-- The text of the error. -/
def message : HexError → String
  | .oddLength => "Odd number of digits"
  | .badDigit b position =>
    "Invalid character '" ++ quotedLatin1 b ++ "' at position " ++ toString position

end HexError
end EventArchive
