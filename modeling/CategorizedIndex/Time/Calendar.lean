/-! # Calendar

Days of the proleptic Gregorian calendar, counted from 1970-01-01. A year is
counted from March, so that the leap day is its last one; the calendar repeats
after 400 years.
-/
namespace CategorizedIndex

structure Date where
  year : Int
  month : Nat
  day : Nat
  deriving DecidableEq

namespace Date

def daysPerCycle : Nat := 146097

/-- Days from 0000-03-01 to 1970-01-01. -/
def epochShift : Nat := 719468

/-- Years that end in a leap day: those divisible by four, but of the centuries
only every fourth. -/
def isLeap (year : Int) : Bool :=
  year % 4 == 0 && (year % 100 != 0 || year % 400 == 0)

def monthLength (year : Int) (month : Nat) : Nat :=
  if month = 2 then if isLeap year then 29 else 28
  else if month = 4 || month = 6 || month = 9 || month = 11 then 30
  else 31

def isValid (d : Date) : Bool :=
  1 ≤ d.month && d.month ≤ 12 && 1 ≤ d.day && d.day ≤ monthLength d.year d.month

/-- Days before the month, counted from the first of March. -/
def daysBeforeMonth (marchMonth : Nat) : Nat := (153 * marchMonth + 2) / 5

def ofDays (days : Int) : Date :=
  let shifted := days + epochShift
  let cycle := shifted / daysPerCycle
  let dayOfCycle := (shifted % daysPerCycle).toNat
  let yearOfCycle :=
    (dayOfCycle - dayOfCycle / 1460 + dayOfCycle / 36524 - dayOfCycle / 146096) / 365
  let dayOfYear := dayOfCycle - (365 * yearOfCycle + yearOfCycle / 4 - yearOfCycle / 100)
  let marchMonth := (5 * dayOfYear + 2) / 153
  let month := if marchMonth < 10 then marchMonth + 3 else marchMonth - 9
  ⟨yearOfCycle + cycle * 400 + (if month ≤ 2 then 1 else 0), month,
    dayOfYear - daysBeforeMonth marchMonth + 1⟩

def toDays (d : Date) : Int :=
  let year := if d.month ≤ 2 then d.year - 1 else d.year
  let cycle := year / 400
  let yearOfCycle := (year % 400).toNat
  let marchMonth := (d.month + 9) % 12
  let dayOfYear := daysBeforeMonth marchMonth + d.day - 1
  let dayOfCycle := yearOfCycle * 365 + yearOfCycle / 4 - yearOfCycle / 100 + dayOfYear
  cycle * daysPerCycle + dayOfCycle - epochShift

end Date

end CategorizedIndex
