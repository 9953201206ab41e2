import Catalog.Store.Record

/-! Instants as readings of the clock: the date and time of day in UTC with six places of seconds, so
that later instants of the years from 1970 to 9999 are later texts. -/

namespace Catalog.Command

/-- A date of the Gregorian calendar. -/
structure Date where
  year : Nat
  month : Nat
  day : Nat
deriving DecidableEq, Repr

/-- The date that lies so many days after the first of March of the year 0. Years are counted from
March, so that the day added in leap years is the last one of its year. -/
def Date.afterMarch (days : Nat) : Date :=
  let era := days / 146097
  let inEra := days % 146097
  let year := (inEra - inEra / 1460 + inEra / 36524 - inEra / 146096) / 365
  let inYear := inEra - (365 * year + year / 4 - year / 100)
  let month := (5 * inYear + 2) / 153
  { year := 400 * era + year + if month < 10 then 0 else 1
    month := if month < 10 then month + 3 else month - 9
    day := inYear - (153 * month + 2) / 5 + 1 }

/-- The date that lies so many days after the start of 1970. -/
def Date.ofDays (days : Nat) : Date := .afterMarch (days + 719468)

/-- Decimal digits, with zeros before them up to a width. -/
def digitsTo (width n : Nat) : String :=
  let digits := Nat.toDigits 10 n
  String.ofList (List.replicate (width - digits.length) '0' ++ digits)

/-- The reading of the clock so many microseconds after the start of 1970. -/
def readingAt (microseconds : Nat) : Timestamp :=
  let seconds := microseconds / 1000000
  let date := Date.ofDays (seconds / 86400)
  let time := seconds % 86400
  digitsTo 4 date.year ++ "-" ++ digitsTo 2 date.month ++ "-" ++ digitsTo 2 date.day ++ "T" ++
    digitsTo 2 (time / 3600) ++ ":" ++ digitsTo 2 (time / 60 % 60) ++ ":" ++ digitsTo 2 (time % 60) ++
    "." ++ digitsTo 6 (microseconds % 1000000) ++ "Z"

example : Date.ofDays 0 = ⟨1970, 1, 1⟩ := by decide
example : Date.ofDays 11016 = ⟨2000, 2, 29⟩ := by decide
example : Date.ofDays 19782 = ⟨2024, 2, 29⟩ := by decide

end Catalog.Command
