import EventArchive.Data.Decimal
import EventArchive.Data.Hex

/-!
# Writing JSON

Compact text: no blanks, and in strings only quotes, backslashes and the control characters below
the blank are escaped.
-/
namespace EventArchive.Json

/-- A character of a string as it is written. -/
def writeChar (c : Char) : List Char :=
  if c = '"' then ['\\', '"']
  else if c = '\\' then ['\\', '\\']
  else if c = '\x08' then ['\\', 'b']
  else if c = '\x0c' then ['\\', 'f']
  else if c = '\n' then ['\\', 'n']
  else if c = '\r' then ['\\', 'r']
  else if c = '\t' then ['\\', 't']
  else if c < ' ' then
    ['\\', 'u', '0', '0', Hex.digit (c.toNat / 16), Hex.digit (c.toNat % 16)]
  else [c]

/-- A string with its quotes. -/
def writeText (s : String) : List Char := '"' :: s.toList.flatMap writeChar ++ ['"']

/-- Texts with commas between them. -/
def joinComma : List (List Char) → List Char
  | [] => []
  | [x] => x
  | x :: y :: rest => x ++ ',' :: joinComma (y :: rest)

/-- A list of written values. -/
def writeList (values : List (List Char)) : List Char := '[' :: joinComma values ++ [']']

/-- An object of keys and written values, in the order given. -/
def writeObject (entries : List (String × List Char)) : List Char :=
  '\x7b' :: joinComma (entries.map fun e => writeText e.1 ++ ':' :: e.2) ++ ['\x7d']

/-- An integer. -/
def writeInt (i : Int) : List Char := Decimal.signed i

end EventArchive.Json
