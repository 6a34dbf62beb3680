import Conform.Number.Decimal

/-! Days of the Gregorian calendar and times of day in universal time, with their one written
form. A second of 60 is a leap second. -/

namespace Conform

structure Date where
  year : Int
  month : Nat
  day : Nat
  deriving DecidableEq, Repr

structure Moment where
  date : Date
  hour : Nat
  minute : Nat
  second : Nat
  nano : Nat
  deriving DecidableEq, Repr

namespace Date

def isLeap (year : Int) : Bool := year % 4 = 0 && (year % 100 ≠ 0 || year % 400 = 0)

def daysIn (year : Int) (month : Nat) : Nat :=
  if month = 2 then if isLeap year then 29 else 28
  else if month = 4 || month = 6 || month = 9 || month = 11 then 30
  else 31

/-- Years that dates are known for. -/
def yearLeast : Int := -262143

def yearGreatest : Int := 262142

def isValid (d : Date) : Bool :=
  yearLeast ≤ d.year && d.year ≤ yearGreatest && 1 ≤ d.month && d.month ≤ 12 &&
    1 ≤ d.day && d.day ≤ daysIn d.year d.month

def next (d : Date) : Date :=
  if d.day < daysIn d.year d.month then { d with day := d.day + 1 }
  else if d.month < 12 then ⟨d.year, d.month + 1, 1⟩
  else ⟨d.year + 1, 1, 1⟩

def previous (d : Date) : Date :=
  if 1 < d.day then { d with day := d.day - 1 }
  else if 1 < d.month then ⟨d.year, d.month - 1, daysIn d.year (d.month - 1)⟩
  else ⟨d.year - 1, 12, 31⟩

end Date

namespace Moment

def isValid (m : Moment) : Bool :=
  m.date.isValid && m.hour ≤ 23 && m.minute ≤ 59 && m.second ≤ 60

/-- The moment in universal time whose local time under an offset of less than a day is `m`. -/
def minusMinutes (m : Moment) (offset : Int) : Moment :=
  let total : Int := (m.hour * 60 + m.minute : Nat) - offset
  let date := if total < 0 then m.date.previous else if 1440 ≤ total then m.date.next else m.date
  let minutes := (total % 1440).toNat
  { m with date, hour := minutes / 60, minute := minutes % 60 }

/-- Digits with zeros before them up to a width. -/
def padded (width n : Nat) : List Char :=
  let ds := decimalDigits n
  List.replicate (width - ds.length) '0' ++ ds

/-- Years of four digits are bare, the others have a sign. -/
def yearChars (year : Int) : List Char :=
  if 0 ≤ year && year ≤ 9999 then padded 4 year.natAbs
  else (if year < 0 then '-' else '+') :: padded 4 year.natAbs

/-- Thousandths, millionths or billionths of a second, whichever is enough. -/
def fractionChars (nano : Nat) : List Char :=
  if nano = 0 then []
  else if nano % 1000000 = 0 then '.' :: padded 3 (nano / 1000000)
  else if nano % 1000 = 0 then '.' :: padded 6 (nano / 1000)
  else '.' :: padded 9 nano

def chars (m : Moment) : List Char :=
  yearChars m.date.year ++ '-' :: padded 2 m.date.month ++ '-' :: padded 2 m.date.day ++
    'T' :: padded 2 m.hour ++ ':' :: padded 2 m.minute ++ ':' :: padded 2 m.second ++
    fractionChars m.nano ++ "+00:00".toList

def text (m : Moment) : String := String.ofList m.chars

end Moment

end Conform
