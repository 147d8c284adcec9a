/-!
# Decimal numerals

Numbers as digits, most significant first, without leading zeros.
-/
namespace EventArchive.Decimal

/-- The digits of a number. -/
def digits (n : Nat) : List Char :=
  if n < 10 then [Char.ofNat (48 + n)] else digits (n / 10) ++ [Char.ofNat (48 + n % 10)]
termination_by n
decreasing_by omega

/-- The digits of an integer, after a minus sign if it is negative. -/
def signed : Int → List Char
  | .ofNat n => digits n
  | .negSucc n => '-' :: digits (n + 1)

/-- The value of a digit. -/
def digitValue (c : Char) : Nat := c.toNat - 48

/-- The number written by digits. -/
def value (ds : List Char) : Nat := ds.foldl (fun n c => n * 10 + digitValue c) 0

/-- The digits a list of characters begins with, and what follows them. -/
def span (cs : List Char) : List Char × List Char :=
  (cs.takeWhile Char.isDigit, cs.dropWhile Char.isDigit)

/-- Read a whole text as a number of at most `bound`: digits, after one optional plus sign. -/
def readBounded (bound : Nat) (cs : List Char) : Option Nat :=
  let ds := match cs with
    | '+' :: rest => rest
    | _ => cs
  if ds.isEmpty ∨ ¬ ds.all Char.isDigit then none
  else if value ds ≤ bound then some (value ds) else none

/-- The digits of a number, with zeros in front up to a width. -/
def padded (width n : Nat) : List Char :=
  let ds := digits n
  List.replicate (width - ds.length) '0' ++ ds

end EventArchive.Decimal
