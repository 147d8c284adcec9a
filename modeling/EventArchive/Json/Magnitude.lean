import EventArchive.Data.Decimal

/-!
# Numbers that are too large

A number that is no integer is held as a double. Its first digits, as many as fit 64 bits, and a
power of ten are each rounded to 53 binary digits, and so is their product; the number is too large
if the product then takes more than 1024 binary digits. Powers of ten beyond the largest one that is
itself a double are not computed with.
-/
namespace EventArchive.Json

/-- A number rounded to 53 binary digits; a tie goes to the even neighbour. -/
def roundBinary (n : Nat) : Nat :=
  let unit := 1 <<< (n.log2 - 52)
  let units := n / unit
  let rest := n % unit
  if unit < 2 * rest ∨ (2 * rest = unit ∧ units % 2 = 1) then (units + 1) * unit
  else units * unit

/-- Digits appended to a number while it fits 64 bits, and the digits left over. -/
def appendDigits (n : Nat) : List Char → Nat × List Char
  | [] => (n, [])
  | d :: ds =>
    let next := n * 10 + Decimal.digitValue d
    if next < UInt64.size then appendDigits next ds else (n, d :: ds)

/-- Whether a number is too large for a double, given its digits before and after the decimal point
and its exponent. -/
def isTooLarge (integral decimals : List Char) (exponent : Int) : Bool :=
  let (lead, dropped) := appendDigits 0 integral
  let (lead, ignored) := appendDigits lead decimals
  let scale := exponent + dropped.length - (decimals.length - ignored.length : Nat)
  match scale with
  | .ofNat e =>
    lead ≠ 0 && (308 < e ||
      1 <<< 1024 ≤ roundBinary (roundBinary lead * roundBinary (Nat.pow 10 e)))
  | .negSucc _ => false

end EventArchive.Json
