/-!
# Values of settings

A settings file holds a table of named values, and a part of a configuration takes the values it
knows from such a table. Names that it does not know are passed over. A part may also be given as a
list, whose values are taken for its names in their order; what either form leaves out keeps its
default.
-/
namespace EventArchive

/-- A value in a settings file. -/
inductive Setting where
  | text (value : String)
  | integer (value : Int)
  | boolean (value : Bool)
  /-- A number that is no integer. No setting takes one. -/
  | float
  | list (members : List Setting)
  | table (members : List (String × Setting))

namespace Setting

/-- A natural number. -/
def ofNat (n : Nat) : Setting := .integer n

/-- The value of a text. -/
def text? : Setting → Option String
  | .text s => some s
  | _ => none

/-- The value of a boolean. -/
def boolean? : Setting → Option Bool
  | .boolean b => some b
  | _ => none

/-- The value of an integer between zero and a bound. -/
def natural? (bound : Nat) : Setting → Option Nat
  | .integer (.ofNat n) => if n ≤ bound then some n else none
  | _ => none

/-- A number of 64 bits. -/
def uint64? (s : Setting) : Option UInt64 := (s.natural? (UInt64.size - 1)).map UInt64.ofNat

/-- A number of 32 bits. -/
def uint32? (s : Setting) : Option UInt32 := (s.natural? (UInt32.size - 1)).map UInt32.ofNat

/-- A number of 8 bits. -/
def uint8? (s : Setting) : Option UInt8 := (s.natural? (UInt8.size - 1)).map UInt8.ofNat

/-- One of several named choices: its name as a text, or as the only key of a table under which
nothing stands. -/
def choice? {α : Type} (choices : List (String × α)) : Setting → Option α
  | .text name => choices.lookup name
  | .table [(name, .table [])] => choices.lookup name
  | .table [(name, .list [])] => choices.lookup name
  | _ => none

/-- The members of a part of a configuration that has the given names. -/
def part? (names : List String) : Setting → Option (List (String × Setting))
  | .table members => some members
  | .list values => some (names.zip values)
  | _ => none

end Setting

/-- The value under a name, read if it is there; otherwise the default. -/
def readMember {α : Type} (members : List (String × Setting)) (name : String)
    (read : Setting → Option α) (default : α) : Option α :=
  match members.lookup name with
  | some s => read s
  | none => some default

end EventArchive
