import RowFilter.Text.Form

/-!
# Days and instants

Days are counted from 1 January 1970 in the Gregorian calendar, extended to all years. The
count is found by starting every year in March, so that the leap day is the last day of its
year, and every four hundred years are alike. Months beyond the twelve roll over into other
years and days beyond the month into other months.

An instant is a number of milliseconds since the beginning of day zero, without leap seconds.
A date is accepted when reading the day that it counts back gives the same date, so that no
roll-over survives.
-/

namespace RowFilter

/-- A calendar date. The month is 1 to 12 and the day 1 to 31 in a date read off a day. -/
structure Date where
  year : Int
  month : Int
  day : Int
deriving DecidableEq

namespace Date

/-- Days in four hundred years. -/
def daysPerEra : Int := 146097

/-- Days from the first of March of year zero to day zero. -/
def dayZero : Int := 719468

/-- The day that a date counts. -/
def toDay (d : Date) : Int :=
  let year := d.year + (d.month - 1).fdiv 12
  let month := (d.month - 1).fmod 12
  -- months and years from the first of March on
  let year := if month < 2 then year - 1 else year
  let month := if month < 2 then month + 10 else month - 2
  let era := year.fdiv 400
  let yearOfEra := year.fmod 400
  let dayOfYear := (153 * month + 2) / 5 + d.day - 1
  era * daysPerEra + (yearOfEra * 365 + yearOfEra / 4 - yearOfEra / 100 + dayOfYear) - dayZero

/-- The date of a day. -/
def ofDay (n : Int) : Date :=
  let n := n + dayZero
  let era := n.fdiv daysPerEra
  let dayOfEra := n.fmod daysPerEra
  let yearOfEra :=
    (dayOfEra - dayOfEra / 1460 + dayOfEra / 36524 - dayOfEra / 146096) / 365
  let dayOfYear := dayOfEra - (365 * yearOfEra + yearOfEra / 4 - yearOfEra / 100)
  let month := (5 * dayOfYear + 2) / 153
  let day := dayOfYear - (153 * month + 2) / 5 + 1
  let year := yearOfEra + era * 400
  if month < 10 then ⟨year, month + 3, day⟩ else ⟨year + 1, month - 9, day⟩

example : toDay ⟨1970, 1, 1⟩ = 0 := by decide
example : ofDay (toDay ⟨2000, 2, 29⟩) = ⟨2000, 2, 29⟩ := by decide
example : ofDay (toDay ⟨1900, 2, 29⟩) = ⟨1900, 3, 1⟩ := by decide

end Date

/-- A time of day to the second (`isValidTime`). -/
def isTimeOfDay (hour minute second : Nat) : Bool :=
  hour ≤ 23 && minute ≤ 59 && second ≤ 59

namespace Instant

def msPerDay : Int := 86400000

/-- The furthest instants, a hundred million days from day zero. -/
def furthest : Nat := 8640000000000000

/-- A year of one or two digits stands for a year of the twentieth century. -/
def fullYear (year : Int) : Int := if 0 ≤ year ∧ year ≤ 99 then 1900 + year else year

/-- The instant of a date and a time of day, unless one of them rolls over (`utcDate`). -/
def ofFields? (year month day hour minute second : Nat) : Option Int :=
  let n := Date.toDay ⟨fullYear year, month, day⟩
  if Date.ofDay n = ⟨year, month, day⟩ ∧ isTimeOfDay hour minute second then
    some (n * msPerDay + ((hour * 60 + minute) * 60 + second : Nat) * 1000)
  else none

/-- Four digits where they suffice, and otherwise a sign and six digits. -/
def yearText (year : Int) : String :=
  if 0 ≤ year ∧ year ≤ 9999 then Text.padded 4 year.toNat
  else (if year < 0 then "-" else "+") ++ Text.padded 6 year.natAbs

/-- Date and time to the millisecond, at the zero meridian. -/
def text (ms : Int) : String :=
  let date := Date.ofDay (ms.fdiv msPerDay)
  let rest := (ms.fmod msPerDay).toNat
  yearText date.year ++ "-" ++ Text.padded 2 date.month.toNat ++ "-" ++
    Text.padded 2 date.day.toNat ++ "T" ++ Text.padded 2 (rest / 3600000) ++ ":" ++
    Text.padded 2 (rest / 60000 % 60) ++ ":" ++ Text.padded 2 (rest / 1000 % 60) ++ "." ++
    Text.padded 3 (rest % 1000) ++ "Z"

def weekdays : List String := ["Thu", "Fri", "Sat", "Sun", "Mon", "Tue", "Wed"]

def months : List String :=
  ["Jan", "Feb", "Mar", "Apr", "May", "Jun", "Jul", "Aug", "Sep", "Oct", "Nov", "Dec"]

/-- Date and time in words, to the second, as a person would write them in a letter. -/
def longText (ms : Int) : String :=
  let n := ms.fdiv msPerDay
  let date := Date.ofDay n
  let rest := (ms.fmod msPerDay).toNat
  (weekdays.getD (n.fmod 7).toNat "") ++ " " ++ (months.getD (date.month - 1).toNat "") ++ " " ++
    Text.padded 2 date.day.toNat ++ " " ++
    (if date.year < 0 then "-" else "") ++ Text.padded 4 date.year.natAbs ++ " " ++
    Text.padded 2 (rest / 3600000) ++ ":" ++ Text.padded 2 (rest / 60000 % 60) ++ ":" ++
    Text.padded 2 (rest / 1000 % 60) ++ " GMT+0000 (Coordinated Universal Time)"

example : (ofFields? 2015 3 11 1 45 14).map text = some "2015-03-11T01:45:14.000Z" := by
  decide +kernel
example : ofFields? 2015 2 29 0 0 0 = none := by decide +kernel
example : ofFields? 99 1 1 0 0 0 = none := by decide +kernel
example : text (-1) = "1969-12-31T23:59:59.999Z" := by decide +kernel
example : text 253402300800000 = "+010000-01-01T00:00:00.000Z" := by decide +kernel

end Instant
end RowFilter
