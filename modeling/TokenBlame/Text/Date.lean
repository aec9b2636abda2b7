/-
# TokenBlame.Text.Date -- an instant as a date

An instant is a number of seconds since the first of January 1970.  `utc` writes it
in the form of RFC 3339 with the offset `+00:00`; `zone` writes an offset the way
commits carry it, a sign and four digits.

Days are counted in eras of 400 years that begin on the first of March, so that the
leap day is the last day of its year and every era has 146097 days.
-/
import TokenBlame.Text.Numeral

set_option autoImplicit false

namespace TokenBlame.Date

/-- A day of the calendar. -/
structure Day where
  year : Int
  month : Nat
  day : Nat
  deriving DecidableEq, Repr

/-- The calendar day that is `days` days after the first of January 1970. -/
def ofDays (days : Int) : Day :=
  let shifted := days + 719468
  let era := shifted / 146097
  let dayOfEra := (shifted % 146097).toNat
  let yearOfEra := (dayOfEra - dayOfEra / 1460 + dayOfEra / 36524 - dayOfEra / 146096) / 365
  let dayOfYear := dayOfEra - (365 * yearOfEra + yearOfEra / 4 - yearOfEra / 100)
  let monthFromMarch := (5 * dayOfYear + 2) / 153
  let month := if monthFromMarch < 10 then monthFromMarch + 3 else monthFromMarch - 9
  { year := (yearOfEra : Int) + era * 400 + (if month ≤ 2 then 1 else 0)
    month := month
    day := dayOfYear - (153 * monthFromMarch + 2) / 5 + 1 }

/-- A year of at least four digits; years outside 0 to 9999 carry a sign. -/
def yearText (year : Int) : String :=
  if 0 ≤ year ∧ year ≤ 9999 then Numeral.padded 4 year.toNat
  else (if year < 0 then "-" else "+") ++ Numeral.padded 4 year.natAbs

/-- The instant `seconds` as a date and a time of day with the offset zero. -/
def utc (seconds : Int) : String :=
  let day := ofDays (seconds / 86400)
  let second := (seconds % 86400).toNat
  yearText day.year ++ "-" ++ Numeral.padded 2 day.month ++ "-" ++ Numeral.padded 2 day.day ++
    "T" ++ Numeral.padded 2 (second / 3600) ++ ":" ++ Numeral.padded 2 (second / 60 % 60) ++ ":" ++
    Numeral.padded 2 (second % 60) ++ "+00:00"

/-- An offset of `minutes` from universal time: a sign, hours and minutes. -/
def zone (minutes : Int) : String :=
  (if minutes < 0 then "-" else "+") ++ Numeral.padded 2 (minutes.natAbs / 60) ++
    Numeral.padded 2 (minutes.natAbs % 60)

end TokenBlame.Date
