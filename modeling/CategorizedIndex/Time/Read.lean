import CategorizedIndex.Text.Blank
import CategorizedIndex.Text.Digits
import CategorizedIndex.Time.Timestamp

/-! # Timestamps from text

A lenient form of RFC 3339. Blanks may stand before every number and before the
marks between them; the year may carry a sign and then any count of digits; the
offset is `UTC`, `Z` or hours and minutes. Digits of the fraction beyond the ninth
are dropped. Second 60 is a leap second.
-/
namespace CategorizedIndex.Timestamp
open Text (digitsValue)

/-- At least one and at most `width` digits. -/
def digits? (width : Option Nat) (s : List Char) : Option (List Char × List Char) :=
  let run := s.takeWhile Char.isDigit
  let digits := match width with
    | some width => run.take width
    | none => run
  if digits.isEmpty then none else some (digits, s.drop digits.length)

def number? (width : Nat) (s : List Char) : Option (Nat × List Char) :=
  (digits? (some width) (Text.trimLeft s)).map fun (digits, rest) => (digitsValue digits, rest)

def bounded? (low high : Nat) (s : List Char) : Option (Nat × List Char) := do
  let (n, rest) ← number? 2 s
  if low ≤ n && n ≤ high then some (n, rest) else none

def year? (s : List Char) : Option (Int × List Char) :=
  match Text.trimLeft s with
  | '-' :: rest => (digits? none rest).map fun (digits, rest) => (-digitsValue digits, rest)
  | '+' :: rest => (digits? none rest).map fun (digits, rest) => (digitsValue digits, rest)
  | s => (digits? (some 4) s).map fun (digits, rest) => (digitsValue digits, rest)

/-- A mark that blanks may precede. -/
def mark? (mark : Char) (s : List Char) : Option (List Char) :=
  match Text.trimLeft s with
  | c :: rest => if c = mark then some rest else none
  | [] => none

def date? (s : List Char) : Option (Date × List Char) := do
  let (year, s) ← year? s
  let s ← mark? '-' s
  let (month, s) ← bounded? 1 12 s
  let s ← mark? '-' s
  let (day, s) ← bounded? 1 31 s
  let date : Date := ⟨year, month, day⟩
  if date.isValid then some (date, s) else none

def fraction? (s : List Char) : Option (Nat × List Char) :=
  match s with
  | '.' :: rest => do
    let (digits, _) ← digits? (some 9) rest
    some (digitsValue digits * Nat.pow 10 (9 - digits.length), rest.dropWhile Char.isDigit)
  | s => some (0, s)

/-- Seconds of the day and nanoseconds. -/
def timeOfDay? (s : List Char) : Option ((Nat × Nat) × List Char) := do
  let (hour, s) ← bounded? 0 23 s
  let s ← mark? ':' s
  let (minute, s) ← bounded? 0 59 s
  let s ← mark? ':' s
  let (second, s) ← bounded? 0 60 s
  let (nanos, s) ← fraction? s
  let start := hour * 3600 + minute * 60
  some (if second = 60 then (start + 59, billion + nanos) else (start + second, nanos), s)

/-- Hours and minutes east of UTC, in seconds. -/
def hoursAndMinutes? (s : List Char) : Option (Nat × List Char) :=
  match s with
  | h1 :: h2 :: rest =>
    match rest.dropWhile fun c => c = ':' || Text.isBlank c with
    | m1 :: m2 :: rest =>
      if h1.isDigit && h2.isDigit && m1.isDigit && m2.isDigit && m1.toNat ≤ '5'.toNat then
        some (digitsValue [h1, h2] * 3600 + digitsValue [m1, m2] * 60, rest)
      else none
    | _ => none
  | _ => none

/-- The offset from UTC in seconds; a minus sign may be a hyphen or U+2212. -/
def offset? (s : List Char) : Option (Int × List Char) :=
  if (s.take 3).map Char.toUpper = ['U', 'T', 'C'] then some (0, s.drop 3)
  else match s with
    | c :: rest =>
      if c = 'Z' || c = 'z' then some (0, rest)
      else if c = '+' then (hoursAndMinutes? rest).map fun (n, rest) => ((n : Int), rest)
      else if c = '-' || c = '\u2212' then
        (hoursAndMinutes? rest).map fun (n, rest) => (-(n : Int), rest)
      else none
    | [] => none

def ofText? (text : String) : Option Timestamp := do
  let (date, s) ← date? text.toList
  let s ← match s with
    | c :: rest => if c = 'T' || c = 't' || c = ' ' then some rest else none
    | [] => none
  let ((second, nanos), s) ← timeOfDay? s
  let (offset, s) ← offset? (Text.trimLeft s)
  if !(Text.trimLeft s).isEmpty || (secondsPerDay : Int) ≤ offset.natAbs then none
  else
    let here := date.toDays * secondsPerDay + second
    if here < earliest || latest < here then none else ofUnix? (here - offset) nanos

def library : Library where
  write := toData
  read? := ofText?

end CategorizedIndex.Timestamp
