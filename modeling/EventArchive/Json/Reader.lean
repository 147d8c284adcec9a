import EventArchive.Event.Error
import EventArchive.Json.Magnitude

/-!
# Reading JSON

A reader takes a value of a known shape off the front of a text. Errors come in three classes: the
text ended, the text is no JSON, or the JSON is not of the shape that was wanted. A reader goes
through the text once, so of several faults the first in reading order is the one reported.
-/
namespace EventArchive.Json

/-- Why no value was read. -/
inductive ReadError where
  /-- The text ends inside a value. -/
  | ended
  /-- The text is no JSON. -/
  | malformed
  /-- A value of another shape, or one that its field refuses for the reason given. -/
  | unfit (reason : Option FormatError)
  deriving DecidableEq, Repr

/-- Takes a value off the front of a text. -/
abbrev Reader (α : Type) := List Char → Except ReadError (α × List Char)

/-- Blanks between the parts of a value. -/
def isBlank (c : Char) : Bool := c = ' ' ∨ c = '\n' ∨ c = '\t' ∨ c = '\r'

/-- The text after the blanks it begins with. -/
def skipBlanks (cs : List Char) : List Char := cs.dropWhile isBlank

/-! ### Words and strings -/

/-- Take a fixed word. -/
def readWord : (word : List Char) → List Char → Except ReadError (List Char)
  | [], cs => .ok cs
  | _ :: _, [] => .error .ended
  | w :: word, c :: cs => if w = c then readWord word cs else .error .malformed

/-- The value of a hexadecimal digit. -/
def hexValue? (c : Char) : Option Nat :=
  if c.toNat < 128 then Hex.digitValue? (UInt8.ofNat c.toNat) else none

/-- Four hexadecimal digits. The text counts as ended if fewer than four bytes are left of it. -/
def readHexQuad : List Char → Except ReadError (Nat × List Char)
  | a :: b :: c :: d :: rest =>
    match hexValue? a, hexValue? b, hexValue? c, hexValue? d with
    | some a, some b, some c, some d => .ok (((a * 16 + b) * 16 + c) * 16 + d, rest)
    | _, _, _, _ => .error .malformed
  | cs => if (String.ofList cs).utf8ByteSize < 4 then .error .ended else .error .malformed

/-- The second half of a pair of surrogates, after its first half. -/
def readLowSurrogate (high : Nat) (cs : List Char) : Except ReadError (Char × List Char) := do
  let cs ← readWord ['\\', 'u'] cs
  let (low, cs) ← readHexQuad cs
  if 0xDC00 ≤ low ∧ low ≤ 0xDFFF then
    return (Char.ofNat (0x10000 + (high - 0xD800) * 0x400 + (low - 0xDC00)), cs)
  else throw .malformed

/-- What follows a backslash in a string: the character meant, and the rest. -/
def readEscape : Reader Char
  | [] => .error .ended
  | '"' :: cs => .ok ('"', cs)
  | '\\' :: cs => .ok ('\\', cs)
  | '/' :: cs => .ok ('/', cs)
  | 'b' :: cs => .ok ('\x08', cs)
  | 'f' :: cs => .ok ('\x0c', cs)
  | 'n' :: cs => .ok ('\n', cs)
  | 'r' :: cs => .ok ('\r', cs)
  | 't' :: cs => .ok ('\t', cs)
  | 'u' :: cs => do
    let (n, cs) ← readHexQuad cs
    if 0xD800 ≤ n ∧ n ≤ 0xDBFF then readLowSurrogate n cs
    else if 0xDC00 ≤ n ∧ n ≤ 0xDFFF then throw .malformed
    else return (Char.ofNat n, cs)
  | _ :: _ => .error .malformed

/-- The characters of a string after its opening quote, and the text after its closing one. The
fuel bounds the number of characters. -/
def readChars : (fuel : Nat) → Reader (List Char)
  | _, [] => .error .ended
  | 0, _ :: _ => .error .ended
  | fuel + 1, c :: cs =>
    if c = '"' then .ok ([], cs)
    else if c = '\\' then do
      let (c, cs) ← readEscape cs
      let (s, cs) ← readChars fuel cs
      return (c :: s, cs)
    else if c < ' ' then .error .malformed
    else do
      let (s, cs) ← readChars fuel cs
      return (c :: s, cs)

/-- A string after its opening quote. -/
def readQuoted : Reader String := fun cs => do
  let (s, cs) ← readChars cs.length cs
  return (String.ofList s, cs)

/-! ### Numbers -/

/-- A number: an integer of at most 64 bits, signed if negative, or anything else, which counts as
a fraction. Minus zero is a fraction. -/
inductive Number where
  | integer (value : Int)
  | fraction
  deriving DecidableEq, Repr

/-- The digits after a decimal point or an exponent mark; there is at least one. -/
def readDigits (cs : List Char) : Except ReadError (List Char × List Char) :=
  match Decimal.span cs with
  | ([], []) => .error .ended
  | ([], _ :: _) => .error .malformed
  | (ds, rest) => .ok (ds, rest)

/-- The optional fraction of a number. -/
def readFraction : List Char → Except ReadError (Option (List Char) × List Char)
  | '.' :: cs => do
    let (ds, cs) ← readDigits cs
    return (some ds, cs)
  | cs => .ok (none, cs)

/-- The digits of an exponent after its mark, with their sign. -/
def readExponentValue : List Char → Except ReadError (Int × List Char)
  | '-' :: cs => do
    let (ds, cs) ← readDigits cs
    return (-(Decimal.value ds : Int), cs)
  | '+' :: cs => do
    let (ds, cs) ← readDigits cs
    return (Decimal.value ds, cs)
  | cs => do
    let (ds, cs) ← readDigits cs
    return (Decimal.value ds, cs)

/-- The optional exponent of a number. -/
def readExponent : List Char → Except ReadError (Option Int × List Char)
  | 'e' :: cs => do
    let (n, cs) ← readExponentValue cs
    return (some n, cs)
  | 'E' :: cs => do
    let (n, cs) ← readExponentValue cs
    return (some n, cs)
  | cs => .ok (none, cs)

/-- The digits before the decimal point: at least one, and no other after a zero. -/
def readIntegral (cs : List Char) : Except ReadError (List Char × List Char) :=
  match Decimal.span cs with
  | ([], []) => .error .ended
  | ([], _ :: _) => .error .malformed
  | ('0' :: _ :: _, _) => .error .malformed
  | (ds, rest) => .ok (ds, rest)

/-- What the parts of a number mean. -/
def numberOf (negative : Bool) (integral : List Char) (decimals : Option (List Char))
    (exponent : Option Int) : Except ReadError Number :=
  let value := Decimal.value integral
  let fraction : Except ReadError Number :=
    if isTooLarge integral (decimals.getD []) (exponent.getD 0) then .error .malformed
    else .ok .fraction
  if decimals.isSome ∨ exponent.isSome then fraction
  else if negative then
    if value ≠ 0 ∧ Int64.minValue.toInt ≤ -(value : Int) then .ok (.integer (-(value : Int)))
    else fraction
  else if value < UInt64.size then .ok (.integer value) else fraction

/-- A number, from its first digit on. -/
def readUnsigned (negative : Bool) : Reader Number := fun cs => do
  let (integral, cs) ← readIntegral cs
  let (decimals, cs) ← readFraction cs
  let (exponent, cs) ← readExponent cs
  let n ← numberOf negative integral decimals exponent
  return (n, cs)

/-- A number. -/
def readNumber : Reader Number
  | '-' :: cs => readUnsigned true cs
  | cs => readUnsigned false cs

/-! ### Values of another shape -/

/-- The error for a value that stands where one of another shape is wanted. A scalar is read
first, since a fault in it comes before the question of its shape. -/
def shapeError (cs : List Char) : ReadError :=
  let after {α : Type} (r : Except ReadError α) : ReadError :=
    match r with
    | .error e => e
    | .ok _ => .unfit none
  match cs with
  | [] => .ended
  | 'n' :: cs => after (readWord ['u', 'l', 'l'] cs)
  | 't' :: cs => after (readWord ['r', 'u', 'e'] cs)
  | 'f' :: cs => after (readWord ['a', 'l', 's', 'e'] cs)
  | '"' :: cs => after (readQuoted cs)
  | '[' :: _ => .unfit none
  | '\x7b' :: _ => .unfit none
  | c :: cs =>
    if c = '-' ∨ c.isDigit then after (readNumber (c :: cs)) else .malformed

/-! ### Shapes -/

/-- A string. -/
def text : Reader String := fun cs =>
  match skipBlanks cs with
  | '"' :: cs => readQuoted cs
  | cs => .error (shapeError cs)

/-- An integer between two bounds. -/
def integer (low high : Int) : Reader Int := fun cs =>
  let cs := skipBlanks cs
  match cs with
  | c :: _ =>
    if c = '-' ∨ c.isDigit then do
      let (n, rest) ← readNumber cs
      match n with
      | .integer i => if low ≤ i ∧ i ≤ high then return (i, rest) else throw (.unfit none)
      | .fraction => throw (.unfit none)
    else .error (shapeError cs)
  | [] => .error .ended

/-- A value, or null for none. -/
def optional {α : Type} (item : Reader α) : Reader (Option α) := fun cs =>
  match skipBlanks cs with
  | 'n' :: cs => do
    let cs ← readWord ['u', 'l', 'l'] cs
    return (none, cs)
  | _ => do
    let (a, cs) ← item cs
    return (some a, cs)

/-- Values that must pass a further test. -/
def refine {α β : Type} (item : Reader α) (check : α → Except FormatError β) : Reader β :=
  fun cs => do
    let (a, cs) ← item cs
    match check a with
    | .ok b => return (b, cs)
    | .error e => throw (.unfit (some e))

/-- The members of a list after its first one. The fuel bounds their number. -/
def moreItems {α : Type} (item : Reader α) : (fuel : Nat) → Reader (List α)
  | 0, _ => .error .ended
  | fuel + 1, cs =>
    match skipBlanks cs with
    | [] => .error .ended
    | ']' :: cs => .ok ([], cs)
    | ',' :: cs =>
      match skipBlanks cs with
      | [] => .error .ended
      | ']' :: _ => .error .malformed
      | cs => do
        let (a, cs) ← item cs
        let (as, cs) ← moreItems item fuel cs
        return (a :: as, cs)
    | _ :: _ => .error .malformed

/-- The members of a list, after its opening bracket. -/
def items {α : Type} (item : Reader α) : Reader (List α) := fun cs =>
  match skipBlanks cs with
  | [] => .error .ended
  | ']' :: cs => .ok ([], cs)
  | cs => do
    let (a, cs) ← item cs
    let (as, cs) ← moreItems item cs.length cs
    return (a :: as, cs)

/-- A list. -/
def list {α : Type} (item : Reader α) : Reader (List α) := fun cs =>
  match skipBlanks cs with
  | '[' :: cs => items item cs
  | cs => .error (shapeError cs)

/-- The colon of a member, and its value. -/
def valueOf {α : Type} (item : Reader α) : Reader α := fun cs =>
  match skipBlanks cs with
  | [] => .error .ended
  | ':' :: cs => item cs
  | _ :: _ => .error .malformed

/-- The value of a member that may be given once only. -/
def once {α σ : Type} (seen : Option α) (item : Reader α) (put : α → σ) : Reader σ := fun cs =>
  if seen.isSome then .error (.unfit none)
  else do
    let (a, cs) ← valueOf item cs
    return (put a, cs)

/-- A member of an object: `step` is given the key, and reads the colon and the value. -/
def readMember {σ : Type} (step : σ → String → Reader σ) (s : σ) : Reader σ
  | [] => .error .ended
  | '"' :: cs => do
    let (key, cs) ← readQuoted cs
    step s key cs
  | _ :: _ => .error .malformed

/-- The members of an object after its first one. The fuel bounds their number. -/
def moreMembers {σ : Type} (step : σ → String → Reader σ) : (fuel : Nat) → σ → Reader σ
  | 0, _, _ => .error .ended
  | fuel + 1, s, cs =>
    match skipBlanks cs with
    | [] => .error .ended
    | '\x7d' :: cs => .ok (s, cs)
    | ',' :: cs => do
      let (s, cs) ← readMember step s (skipBlanks cs)
      moreMembers step fuel s cs
    | _ :: _ => .error .malformed

/-- The members of an object after its opening brace, folded into a state. The closing brace is
left to `finish`, which sees the state first. -/
def members {σ : Type} (step : σ → String → Reader σ) (s : σ) : Reader σ := fun cs =>
  match skipBlanks cs with
  | [] => .error .ended
  | '\x7d' :: cs => .ok (s, cs)
  | cs => do
    let (s, cs) ← readMember step s cs
    moreMembers step cs.length s cs

/-- A whole text that holds one value and nothing else. -/
def readText {α : Type} (item : Reader α) (s : String) : Except ReadError α := do
  let (a, cs) ← item s.toList
  if (skipBlanks cs).isEmpty then return a else throw .malformed

end EventArchive.Json
