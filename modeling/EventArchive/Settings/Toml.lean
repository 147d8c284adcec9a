import EventArchive.Data.Decimal
import EventArchive.Data.Hex
import EventArchive.Settings.Document

/-!
# Reading TOML

A settings file in TOML: comments, tables opened by headers, lists of tables, keys with dots, inline
tables, lists, the four kinds of strings, integers in four bases, floats and booleans. Dates are not
read. Integers have 64 bits and a sign.

A file that breaks a rule is refused as a whole, without a reason, so a reader either takes a value
off the front of the text or gives none.
-/
namespace EventArchive.Toml

/-- Takes a value off the front of a text. -/
abbrev Reader (α : Type) := List Char → Option (α × List Char)

/-! ### Blanks and line ends -/

/-- A blank within a line. -/
def isBlank (c : Char) : Bool := c = ' ' ∨ c = '\t'

/-- The text after the blanks it begins with. -/
def skipBlanks (cs : List Char) : List Char := cs.dropWhile isBlank

/-- Whether a character may stand in a comment or a string as it is. -/
def isPlain (c : Char) : Bool := c = '\t' ∨ (' ' ≤ c ∧ c ≠ '\x7f')

/-- The text after a line end; the end of the text is one. -/
def lineEnd : List Char → Option (List Char)
  | [] => some []
  | '\n' :: cs => some cs
  | '\r' :: '\n' :: cs => some cs
  | _ => none

/-- The text after a comment, if it begins with one. -/
def skipComment : List Char → List Char
  | '#' :: cs => cs.dropWhile isPlain
  | cs => cs

/-- The text after blanks, a comment and the line end. -/
def finishLine (cs : List Char) : Option (List Char) := lineEnd (skipComment (skipBlanks cs))

/-- The text after blanks, comments and line ends. The fuel bounds the number of lines. -/
def skipLines : (fuel : Nat) → List Char → List Char
  | 0, cs => cs
  | fuel + 1, cs =>
    match skipBlanks cs with
    | [] => []
    | cs =>
      match finishLine cs with
      | some rest => skipLines fuel rest
      | none => cs

/-! ### Strings -/

/-- The character of a given number of hexadecimal digits. -/
def readCodePoint (width : Nat) (cs : List Char) : Option (Char × List Char) := do
  let digits := cs.take width
  if digits.length < width then none
  let n ← digits.foldlM (fun n c =>
    (if c.toNat < 128 then Hex.digitValue? (UInt8.ofNat c.toNat) else none).map (16 * n + ·)) 0
  if n.isValidChar then some (Char.ofNat n, cs.drop width) else none

/-- What follows a backslash: the character meant, and the rest. -/
def readEscape : List Char → Option (Char × List Char)
  | 'b' :: cs => some ('\x08', cs)
  | 't' :: cs => some ('\t', cs)
  | 'n' :: cs => some ('\n', cs)
  | 'f' :: cs => some ('\x0c', cs)
  | 'r' :: cs => some ('\r', cs)
  | '"' :: cs => some ('"', cs)
  | '\\' :: cs => some ('\\', cs)
  | 'u' :: cs => readCodePoint 4 cs
  | 'U' :: cs => readCodePoint 8 cs
  | _ => none

/-- A string in double quotes, after the first of them. The fuel bounds its characters. -/
def readBasic : (fuel : Nat) → Reader (List Char)
  | 0, _ => none
  | _ + 1, [] => none
  | fuel + 1, c :: cs => do
    if c = '"' then return ([], cs)
    if c = '\\' then
      let (e, cs) ← readEscape cs
      let (tail, cs) ← readBasic fuel cs
      return (e :: tail, cs)
    if isPlain c then
      let (tail, cs) ← readBasic fuel cs
      return (c :: tail, cs)
    none

/-- A string in single quotes, after the first of them. -/
def readLiteral (cs : List Char) : Option (List Char × List Char) :=
  match cs.dropWhile fun c => isPlain c && c != '\'' with
  | '\'' :: rest => some (cs.takeWhile fun c => isPlain c && c != '\'', rest)
  | _ => none

/-- The end of a string in three quotes, once three have been read: up to two more belong to it. -/
def closeLong (quote : Char) (cs : List Char) : List Char × List Char :=
  match cs with
  | a :: b :: rest =>
    if a = quote ∧ b = quote then ([quote, quote], rest)
    else if a = quote then ([quote], b :: rest)
    else ([], cs)
  | [a] => if a = quote then ([quote], []) else ([], cs)
  | [] => ([], [])

/-- The text after a backslash at the end of a line, with the blanks and line ends that follow; none
if other characters follow the backslash in its line. -/
def joinLines (cs : List Char) : Option (List Char) :=
  match lineEnd (skipBlanks cs) with
  | some rest =>
    some (rest.dropWhile fun c => c = ' ' ∨ c = '\t' ∨ c = '\n' ∨ c = '\r')
  | none => none

/-- A string in three quotes over several lines, after its opening. Escapes are those of a string in
double quotes. The fuel bounds its characters. -/
def readLong (quote : Char) (escapes : Bool) : (fuel : Nat) → Reader (List Char)
  | 0, _ => none
  | _ + 1, [] => none
  | fuel + 1, c :: cs => do
    if c = quote then
      match cs with
      | b :: d :: rest =>
        if b = quote ∧ d = quote then return closeLong quote rest
      | _ => pure ()
      let (tail, cs) ← readLong quote escapes fuel cs
      return (c :: tail, cs)
    if c = '\\' ∧ escapes then
      match joinLines cs with
      | some cs => readLong quote escapes fuel cs
      | none =>
        let (e, cs) ← readEscape cs
        let (tail, cs) ← readLong quote escapes fuel cs
        return (e :: tail, cs)
    else if isPlain c then
      let (tail, cs) ← readLong quote escapes fuel cs
      return (c :: tail, cs)
    else
      let cs ← lineEnd (c :: cs)
      let (tail, cs) ← readLong quote escapes fuel cs
      return ('\n' :: tail, cs)

/-- The text after the line end that may follow the opening of a string in three quotes. -/
def skipFirstLineEnd (cs : List Char) : List Char :=
  match cs with
  | [] => []
  | cs => (lineEnd cs).getD cs

/-! ### Keys -/

/-- Whether a character may stand in a key without quotes. -/
def isKeyChar (c : Char) : Bool := c.isAlphanum || c = '_' || c = '-'

/-- One part of a key. -/
def readKeyPart : Reader String
  | '"' :: cs => do
    let (s, cs) ← readBasic cs.length cs
    return (String.ofList s, cs)
  | '\'' :: cs => do
    let (s, cs) ← readLiteral cs
    return (String.ofList s, cs)
  | cs =>
    let name := cs.takeWhile isKeyChar
    if name.isEmpty then none else some (String.ofList name, cs.dropWhile isKeyChar)

/-- A key of parts with dots between them. The fuel bounds their number. -/
def readKeyParts : (fuel : Nat) → Reader (List String)
  | 0, _ => none
  | fuel + 1, cs => do
    let (part, cs) ← readKeyPart (skipBlanks cs)
    match skipBlanks cs with
    | '.' :: cs =>
      let (parts, cs) ← readKeyParts fuel cs
      return (part :: parts, cs)
    | cs => return ([part], cs)

/-- A key, with the blanks around it. -/
def readKey (cs : List Char) : Option (List String × List Char) := readKeyParts cs.length cs

/-! ### Numbers and booleans -/

/-- Whether a character may stand in a number or in a word. -/
def isWordChar (c : Char) : Bool := isKeyChar c || c = '+' || c = '.'

/-- The value of a digit of a base. -/
def digit? (base : Nat) (c : Char) : Option Nat := do
  let n ← if c.toNat < 128 then Hex.digitValue? (UInt8.ofNat c.toNat) else none
  if n < base then some n else none

/-- The value of digits with single underscores between them. -/
def digitsValue? (base : Nat) (value : Nat) : List Char → Option Nat
  | [] => none
  | [c] => (digit? base c).map (base * value + ·)
  | c :: '_' :: cs => do digitsValue? base (base * value + (← digit? base c)) cs
  | c :: cs => do digitsValue? base (base * value + (← digit? base c)) cs

/-- Digits of base ten, without a zero in front of others. -/
def decimal? : List Char → Option Nat
  | ['0'] => some 0
  | '0' :: _ => none
  | cs => digitsValue? 10 0 cs

/-- The sign of a number, and what follows it. -/
def splitSign : List Char → Bool × List Char
  | '-' :: cs => (true, cs)
  | '+' :: cs => (false, cs)
  | cs => (false, cs)

/-- An integer of 64 bits with a sign. -/
def integer? (cs : List Char) : Option Int := do
  let n ← match cs with
    | '0' :: 'x' :: ds => (digitsValue? 16 0 ds).map Int.ofNat
    | '0' :: 'o' :: ds => (digitsValue? 8 0 ds).map Int.ofNat
    | '0' :: 'b' :: ds => (digitsValue? 2 0 ds).map Int.ofNat
    | cs => (decimal? (splitSign cs).2).map fun n => if (splitSign cs).1 then -n else n
  if Int64.minValue.toInt ≤ n ∧ n ≤ Int64.maxValue.toInt then some n else none

/-- Whether an exponent follows, or nothing. -/
def isExponent : List Char → Bool
  | [] => true
  | e :: cs => (e = 'e' || e = 'E') && (digitsValue? 10 0 (splitSign cs).2).isSome

/-- Whether characters write a float. -/
def isFloat (cs : List Char) : Bool :=
  let body := (splitSign cs).2
  let isDigit := fun c : Char => c.isDigit || c = '_'
  let whole := body.takeWhile isDigit
  body = ['i', 'n', 'f'] || body = ['n', 'a', 'n'] ||
    ((decimal? whole).isSome &&
      match body.dropWhile isDigit with
      | [] => false
      | '.' :: rest =>
        (digitsValue? 10 0 (rest.takeWhile isDigit)).isSome && isExponent (rest.dropWhile isDigit)
      | rest => isExponent rest)

/-- The value of a word. -/
def wordValue? (cs : List Char) : Option Setting :=
  if cs = ['t', 'r', 'u', 'e'] then some (.boolean true)
  else if cs = ['f', 'a', 'l', 's', 'e'] then some (.boolean false)
  else match integer? cs with
    | some n => some (.integer n)
    | none => if isFloat cs then some .float else none

/-! ### Values -/

mutual

/-- A value. The fuel bounds the steps of the whole reading. -/
def readValue : (fuel : Nat) → Reader Setting
  | 0, _ => none
  | fuel + 1, cs =>
    match cs with
    | '"' :: '"' :: '"' :: cs => do
      let cs := skipFirstLineEnd cs
      let (s, cs) ← readLong '"' true (cs.length + 1) cs
      return (.text (String.ofList s), cs)
    | '\'' :: '\'' :: '\'' :: cs => do
      let cs := skipFirstLineEnd cs
      let (s, cs) ← readLong '\'' false (cs.length + 1) cs
      return (.text (String.ofList s), cs)
    | '"' :: cs => do
      let (s, cs) ← readBasic cs.length cs
      return (.text (String.ofList s), cs)
    | '\'' :: cs => do
      let (s, cs) ← readLiteral cs
      return (.text (String.ofList s), cs)
    | '[' :: cs => do
      let (values, cs) ← readItems fuel (skipLines cs.length cs)
      return (.list values, cs)
    | '\x7b' :: cs =>
      match skipBlanks cs with
      | '\x7d' :: cs => some (.table [], cs)
      | cs => do
        let (members, cs) ← readMembers fuel [] cs
        return (.table (DocumentPart.settings members), cs)
    | cs => do
      let s ← wordValue? (cs.takeWhile isWordChar)
      return (s, cs.dropWhile isWordChar)

/-- The values of a list, after its opening bracket or a comma. -/
def readItems : (fuel : Nat) → Reader (List Setting)
  | 0, _ => none
  | _ + 1, ']' :: cs => some ([], cs)
  | fuel + 1, cs => do
    let (s, cs) ← readValue fuel cs
    match skipLines cs.length cs with
    | ']' :: cs => return ([s], cs)
    | ',' :: cs =>
      let (values, cs) ← readItems fuel (skipLines cs.length cs)
      return (s :: values, cs)
    | _ => none

/-- The members of an inline table, after its opening brace or a comma. -/
def readMembers : (fuel : Nat) → DocumentPart.Members → Reader DocumentPart.Members
  | 0, _, _ => none
  | fuel + 1, before, cs => do
    let (path, cs) ← readKey cs
    match cs with
    | '=' :: cs =>
      let (s, cs) ← readValue fuel (skipBlanks cs)
      let members ← DocumentPart.insert path s before
      match skipBlanks cs with
      | '\x7d' :: cs => return (members, cs)
      | ',' :: cs => readMembers fuel members cs
      | _ => none
    | _ => none

end

/-! ### The file -/

/-- The file as far as it has been read: its tables, and the header that stands above the line. -/
structure Progress where
  members : DocumentPart.Members
  header : List String

/-- A line that is not blank. -/
def readLine (p : Progress) (cs : List Char) : Option (Progress × List Char) :=
  match cs with
  | '[' :: '[' :: cs => do
    let (path, cs) ← readKey cs
    match cs with
    | ']' :: ']' :: cs => return (⟨← DocumentPart.openItem path p.members, path⟩, ← finishLine cs)
    | _ => none
  | '[' :: cs => do
    let (path, cs) ← readKey cs
    match cs with
    | ']' :: cs => return (⟨← DocumentPart.openTable path p.members, path⟩, ← finishLine cs)
    | _ => none
  | cs => do
    let (path, cs) ← readKey cs
    match cs with
    | '=' :: cs =>
      let (s, cs) ← readValue (cs.length + 1) (skipBlanks cs)
      let members ← DocumentPart.within (DocumentPart.insert path s) p.header p.members
      return ({ p with members }, ← finishLine cs)
    | _ => none

/-- The lines of a file. The fuel bounds their number. -/
def readLines : (fuel : Nat) → Progress → List Char → Option DocumentPart.Members
  | 0, _, _ => none
  | fuel + 1, p, cs =>
    match skipLines cs.length cs with
    | [] => some p.members
    | cs => do
      let (p, cs) ← readLine p cs
      readLines fuel p cs

/-- The table of settings that a text writes, if it is TOML. -/
def parse? (text : String) : Option Setting :=
  let cs := text.toList
  let cs := if cs.head? = some '\ufeff' then cs.drop 1 else cs
  (readLines (cs.length + 1) ⟨[], []⟩ cs).map fun ms => .table (DocumentPart.settings ms)

end EventArchive.Toml
