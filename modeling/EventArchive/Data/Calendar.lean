import EventArchive.Data.Decimal

/-!
# Calendar dates

The date in the Gregorian calendar of a number of seconds since the beginning of 1970, without leap
seconds and in universal time. Years are counted from the first of March, so that a leap day is the
last day of its year, in cycles of 400 years, which all have the same number of days.
-/
namespace EventArchive

/-- A day of the calendar. -/
structure Date where
  year : Int
  month : Nat
  day : Nat
  deriving DecidableEq, Repr

namespace Date

/-- Number of days in 400 years. -/
def cycleLength : Nat := 146097

/-- Days from the first of March of the year 0 to the first of January 1970. -/
def epochOffset : Nat := 719468

/-- The year within a cycle that has a given day of the cycle. -/
def yearOfCycleDay (d : Nat) : Nat := (d - d / 1460 + d / 36524 - d / 146096) / 365

/-- The days of a cycle before a year of it. -/
def cycleDayOfYear (y : Nat) : Nat := 365 * y + y / 4 - y / 100

/-- The date of a number of days since the beginning of 1970. -/
def ofDays (days : Int) : Date :=
  let n := days + epochOffset
  let cycle := n.fdiv cycleLength
  let d := (n - cycle * cycleLength).toNat
  let y := yearOfCycleDay d
  let dayOfYear := d - cycleDayOfYear y
  let month := (5 * dayOfYear + 2) / 153
  let day := dayOfYear - (153 * month + 2) / 5 + 1
  if month < 10 then ⟨cycle * 400 + y, month + 3, day⟩ else ⟨cycle * 400 + y + 1, month - 9, day⟩

/-- The date of a number of seconds since the beginning of 1970. -/
def ofSeconds (seconds : Int) : Date := ofDays (seconds.fdiv 86400)

/-- A date as year, month and day with hyphens between them. -/
def text (d : Date) : List Char :=
  let sign := if d.year < 0 then ['-'] else []
  sign ++ Decimal.padded 4 d.year.natAbs ++ '-' :: Decimal.padded 2 d.month
    ++ '-' :: Decimal.padded 2 d.day

end Date

/-- The hour of the day of a number of seconds since the beginning of 1970. -/
def hourOfSeconds (seconds : Int) : Nat := ((seconds.fmod 86400).fdiv 3600).toNat

end EventArchive
