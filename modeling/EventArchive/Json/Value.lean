import EventArchive.Json.Reader

/-!
# JSON values of any shape

`readValue` keeps what it reads, and bounds how deep values may nest. `skipValue` reads over a value
that nobody asked for: it checks the grammar, but neither the size of a number, nor the pairing of
surrogates, nor the depth.
-/
namespace EventArchive.Json

/-- A value of any shape. -/
inductive Value where
  | null
  | boolean (value : Bool)
  | number (value : Number)
  | text (value : String)
  | list (members : List Value)
  | object (members : List (String × Value))

/-- The texts of a list of strings; nothing for any other value. -/
def Value.texts? : Value → Option (List String)
  | .list members => members.mapM fun
    | .text s => some s
    | _ => none
  | _ => none

mutual

/-- A value nested at most `depth` deep. The fuel bounds the steps of the whole reading. -/
def readNested : (fuel depth : Nat) → Reader Value
  | 0, _, _ => .error .ended
  | fuel + 1, depth, cs =>
    match skipBlanks cs with
    | [] => .error .ended
    | 'n' :: cs => do return (.null, ← readWord ['u', 'l', 'l'] cs)
    | 't' :: cs => do return (.boolean true, ← readWord ['r', 'u', 'e'] cs)
    | 'f' :: cs => do return (.boolean false, ← readWord ['a', 'l', 's', 'e'] cs)
    | '"' :: cs => do
      let (s, cs) ← readQuoted cs
      return (.text s, cs)
    | '[' :: cs =>
      match depth with
      | 0 => .error .malformed
      | depth + 1 =>
        match skipBlanks cs with
        | [] => .error .ended
        | ']' :: cs => .ok (.list [], cs)
        | cs => do
          let (v, cs) ← readNested fuel depth cs
          let (vs, cs) ← readNestedItems fuel depth cs
          return (.list (v :: vs), cs)
    | '\x7b' :: cs =>
      match depth with
      | 0 => .error .malformed
      | depth + 1 =>
        match skipBlanks cs with
        | [] => .error .ended
        | '\x7d' :: cs => .ok (.object [], cs)
        | cs => do
          let (m, cs) ← readNestedMember fuel depth cs
          let (ms, cs) ← readNestedMembers fuel depth cs
          return (.object (m :: ms), cs)
    | c :: cs =>
      if c = '-' ∨ c.isDigit then do
        let (n, cs) ← readNumber (c :: cs)
        return (.number n, cs)
      else .error .malformed

/-- The members of a nested list after its first one. -/
def readNestedItems : (fuel depth : Nat) → Reader (List Value)
  | 0, _, _ => .error .ended
  | fuel + 1, depth, cs =>
    match skipBlanks cs with
    | [] => .error .ended
    | ']' :: cs => .ok ([], cs)
    | ',' :: cs => do
      let (v, cs) ← readNested fuel depth cs
      let (vs, cs) ← readNestedItems fuel depth cs
      return (v :: vs, cs)
    | _ :: _ => .error .malformed

/-- A key, its colon and its value. -/
def readNestedMember : (fuel depth : Nat) → Reader (String × Value)
  | 0, _, _ => .error .ended
  | _ + 1, _, [] => .error .ended
  | fuel + 1, depth, '"' :: cs => do
    let (key, cs) ← readQuoted cs
    match skipBlanks cs with
    | [] => throw .ended
    | ':' :: cs => do
      let (v, cs) ← readNested fuel depth cs
      return ((key, v), cs)
    | _ :: _ => throw .malformed
  | _ + 1, _, _ :: _ => .error .malformed

/-- The members of a nested object after its first one. -/
def readNestedMembers : (fuel depth : Nat) → Reader (List (String × Value))
  | 0, _, _ => .error .ended
  | fuel + 1, depth, cs =>
    match skipBlanks cs with
    | [] => .error .ended
    | '\x7d' :: cs => .ok ([], cs)
    | ',' :: cs => do
      let (m, cs) ← readNestedMember fuel depth (skipBlanks cs)
      let (ms, cs) ← readNestedMembers fuel depth cs
      return (m :: ms, cs)
    | _ :: _ => .error .malformed

end

/-- Depth at which nesting is refused, counting every list and object around a value. -/
def depthLimit : Nat := 127

/-- A value that stands inside `around` other lists and objects. -/
def readValue (around : Nat) : Reader Value := fun cs =>
  readNested (2 * cs.length + 2) (depthLimit - around) cs

/-! ### Reading over a value -/

/-- Read over four hexadecimal digits. -/
def skipHexQuad (cs : List Char) : Except ReadError (List Char) := (readHexQuad cs).map (·.2)

/-- Read over a string after its opening quote. -/
def skipChars : (fuel : Nat) → List Char → Except ReadError (List Char)
  | _, [] => .error .ended
  | 0, _ :: _ => .error .ended
  | fuel + 1, c :: cs =>
    if c = '"' then .ok cs
    else if c = '\\' then
      match cs with
      | [] => .error .ended
      | 'u' :: cs => skipHexQuad cs >>= skipChars fuel
      | e :: cs =>
        if e ∈ ['"', '\\', '/', 'b', 'f', 'n', 'r', 't'] then skipChars fuel cs
        else .error .malformed
    else if c < ' ' then .error .malformed
    else skipChars fuel cs

/-- Read over digits; there is at least one. -/
def skipDigits (cs : List Char) : Except ReadError (List Char) :=
  match Decimal.span cs with
  | ([], _) => .error .malformed
  | (_, rest) => .ok rest

/-- Read over the exponent of a number, if it has one. -/
def skipExponent : List Char → Except ReadError (List Char)
  | e :: cs =>
    if e = 'e' ∨ e = 'E' then
      match cs with
      | '+' :: cs => skipDigits cs
      | '-' :: cs => skipDigits cs
      | cs => skipDigits cs
    else .ok (e :: cs)
  | [] => .ok []

/-- Read over a number from its first digit on. -/
def skipUnsigned (cs : List Char) : Except ReadError (List Char) :=
  match Decimal.span cs with
  | ([], _) => .error .malformed
  | ('0' :: _ :: _, _) => .error .malformed
  | (_, '.' :: rest) => skipDigits rest >>= skipExponent
  | (_, rest) => skipExponent rest

mutual

/-- Read over a value. The fuel bounds the steps of the whole reading. -/
def skipNested : (fuel : Nat) → List Char → Except ReadError (List Char)
  | 0, _ => .error .ended
  | fuel + 1, cs =>
    match skipBlanks cs with
    | [] => .error .ended
    | 'n' :: cs => readWord ['u', 'l', 'l'] cs
    | 't' :: cs => readWord ['r', 'u', 'e'] cs
    | 'f' :: cs => readWord ['a', 'l', 's', 'e'] cs
    | '"' :: cs => skipChars cs.length cs
    | '-' :: cs => skipUnsigned cs
    | '[' :: cs =>
      match skipBlanks cs with
      | [] => .error .ended
      | ']' :: cs => .ok cs
      | cs => do
        let cs ← skipNested fuel cs
        skipNestedItems fuel cs
    | '\x7b' :: cs =>
      match skipBlanks cs with
      | [] => .error .ended
      | '\x7d' :: cs => .ok cs
      | cs => do
        let cs ← skipNestedMember fuel cs
        skipNestedMembers fuel cs
    | c :: cs => if c.isDigit then skipUnsigned (c :: cs) else .error .malformed

/-- Read over the members of a list after its first one. -/
def skipNestedItems : (fuel : Nat) → List Char → Except ReadError (List Char)
  | 0, _ => .error .ended
  | fuel + 1, cs =>
    match skipBlanks cs with
    | [] => .error .ended
    | ']' :: cs => .ok cs
    | ',' :: cs => do
      let cs ← skipNested fuel cs
      skipNestedItems fuel cs
    | _ :: _ => .error .malformed

/-- Read over a key, its colon and its value. -/
def skipNestedMember : (fuel : Nat) → List Char → Except ReadError (List Char)
  | 0, _ => .error .ended
  | _ + 1, [] => .error .ended
  | fuel + 1, '"' :: cs => do
    let cs ← skipChars cs.length cs
    match skipBlanks cs with
    | [] => throw .ended
    | ':' :: cs => skipNested fuel cs
    | _ :: _ => throw .malformed
  | _ + 1, _ :: _ => .error .malformed

/-- Read over the members of an object after its first one. -/
def skipNestedMembers : (fuel : Nat) → List Char → Except ReadError (List Char)
  | 0, _ => .error .ended
  | fuel + 1, cs =>
    match skipBlanks cs with
    | [] => .error .ended
    | '\x7d' :: cs => .ok cs
    | ',' :: cs => do
      let cs ← skipNestedMember fuel (skipBlanks cs)
      skipNestedMembers fuel cs
    | _ :: _ => .error .malformed

end

/-- Read over a value of any shape. -/
def skipValue (cs : List Char) : Except ReadError (List Char) :=
  skipNested (2 * cs.length + 2) cs

end EventArchive.Json
