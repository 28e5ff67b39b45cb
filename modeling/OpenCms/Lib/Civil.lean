import Mathlib.Data.Int.Basic
import Mathlib.Order.Basic

/-!
# Days and dates

The days are numbered from the first of January 1970. A year begins with the day
`OpenCms.Civil.dayFromYear`, where every fourth year has a day more, but for the centuries that are
not divisible by 400. The year of a day is the one that has begun last
(`OpenCms.Civil.yearFromDay`), and within the year the months are counted off.
-/

namespace OpenCms.Civil

def dayFromYear (year : ℤ) : ℤ :=
  365 * (year - 1970) + (year - 1969) / 4 - (year - 1901) / 100 + (year - 1601) / 400

/-- A year has a day more. -/
def isLeap (year : ℤ) : Bool := year % 4 = 0 ∧ (year % 100 ≠ 0 ∨ year % 400 = 0)

/-- The year of a day: one that is taken from the mean length of a year, or one beside it. -/
def yearFromDay (day : ℤ) : ℤ :=
  let year := 1970 + day * 400 / 146097
  if day < dayFromYear year then year - 1
  else if dayFromYear (year + 1) ≤ day then year + 1
  else year

def monthLengths (leap : Bool) : List ℕ :=
  [31, if leap then 29 else 28, 31, 30, 31, 30, 31, 31, 30, 31, 30, 31]

def monthAndDate : List ℕ → ℕ → ℕ × ℕ
  | [], days => (0, days + 1)
  | length :: lengths, days =>
    if days < length then (0, days + 1)
    else
      let rest := monthAndDate lengths (days - length)
      (rest.1 + 1, rest.2)

def dateOfDay (day : ℤ) : ℕ × ℕ :=
  let year := yearFromDay day
  monthAndDate (monthLengths (isLeap year)) (day - dayFromYear year).toNat

/-- The day of the week, from Sunday on: the first of January 1970 was a Thursday. -/
def weekDay (day : ℤ) : ℕ := ((day + 4) % 7).toNat

end OpenCms.Civil
