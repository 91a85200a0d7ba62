import CategorizedIndex.Text.Digits
import CategorizedIndex.Time.Calendar

/-! # Timestamps

An instant of UTC to the nanosecond. Inside a leap second the count of seconds
stands still at second 59 and the nanoseconds go on past one billion, so instants
are ordered by seconds first and nanoseconds second. The written form has as many
digits of the fraction as it needs in groups of three, and a signed year outside
0 to 9999.
-/
namespace CategorizedIndex

namespace Timestamp

def secondsPerDay : Nat := 86400
def billion : Nat := 1000000000

/-- The start of the year -262143. -/
def earliest : Int := (Date.mk (-262143) 1 1).toDays * secondsPerDay

/-- The last second of the year 262142. -/
def latest : Int := (Date.mk 262142 12 31).toDays * secondsPerDay + 86399

def Admissible (seconds : Int) (nanos : Nat) : Prop :=
  (earliest ≤ seconds ∧ seconds ≤ latest) ∧
    (nanos < billion ∨ (nanos < 2 * billion ∧ seconds % 60 = 59))

instance (seconds : Int) (nanos : Nat) : Decidable (Admissible seconds nanos) :=
  inferInstanceAs (Decidable (_ ∧ _))

end Timestamp

structure Timestamp where
  seconds : Int
  nanos : Nat
  admissible : Timestamp.Admissible seconds nanos
  deriving DecidableEq

namespace Timestamp

def ofUnix? (seconds : Int) (nanos : Nat) : Option Timestamp :=
  if h : Admissible seconds nanos then some ⟨seconds, nanos, h⟩ else none

def cmp (a b : Timestamp) : Ordering :=
  (compare a.seconds b.seconds).then (compare a.nanos b.nanos)

def date (t : Timestamp) : Date := Date.ofDays (t.seconds / secondsPerDay)

def secondOfDay (t : Timestamp) : Nat := (t.seconds % secondsPerDay).toNat

open Text (padded)

def yearText (year : Int) : List Char :=
  if 0 ≤ year && year ≤ 9999 then padded 4 year.toNat
  else (if year < 0 then '-' else '+') :: padded 4 year.natAbs

def fractionText (nanos : Nat) : List Char :=
  if nanos = 0 then []
  else if nanos % 1000000 = 0 then '.' :: padded 3 (nanos / 1000000)
  else if nanos % 1000 = 0 then '.' :: padded 6 (nanos / 1000)
  else '.' :: padded 9 nanos

/-- Date and time of day without an offset; a leap second shows as second 60. -/
def localText (t : Timestamp) : List Char :=
  let d := t.date
  let s := t.secondOfDay
  let leap := if billion ≤ t.nanos then 1 else 0
  yearText d.year ++ ['-'] ++ padded 2 d.month ++ ['-'] ++ padded 2 d.day ++ ['T'] ++
    padded 2 (s / 3600) ++ [':'] ++ padded 2 (s / 60 % 60) ++ [':'] ++
    padded 2 (s % 60 + leap) ++ fractionText (t.nanos % billion)

def toText (t : Timestamp) : String := String.ofList (t.localText ++ "+00:00".toList)

/-- The form stored as data, with the offset `Z`. -/
def toData (t : Timestamp) : String := String.ofList (t.localText ++ ['Z'])

/-- What writes timestamps as data and reads them. -/
structure Library where
  write : Timestamp → String
  read? : String → Option Timestamp

end Timestamp

end CategorizedIndex
