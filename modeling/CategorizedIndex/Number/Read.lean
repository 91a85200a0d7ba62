import CategorizedIndex.Number.Basic
import CategorizedIndex.Text.Digits

/-! # Numbers from decimal text

A sign, digits with at most one point, and an exponent are read as the number
nearest to their exact value; `inf`, `infinity` and `nan` stand for themselves in
any case.
-/
namespace CategorizedIndex.Number
open Text (digitsValue)

/-- The number nearest to `digits * 10 ^ power`. A power far outside the range of
finite numbers gives zero or infinity without being computed. -/
def ofScientific (negative : Bool) (digits : Nat) (power : Int) : Number :=
  let size : Int := (Text.decimal digits).length
  if digits = 0 || power + size < -330 then ofMagnitude negative 0
  else if 310 < power + size then infinity negative
  else ofRatio negative (digits * Nat.pow 10 power.toNat) (Nat.pow 10 (-power).toNat)

def readExponent? : List Char → Option Int
  | [] => some 0
  | c :: rest =>
    if c = 'e' || c = 'E' then
      let (negative, digits) := match rest with
        | '-' :: digits => (true, digits)
        | '+' :: digits => (false, digits)
        | digits => (false, digits)
      if digits.isEmpty || !digits.all Char.isDigit then none
      else some (if negative then -digitsValue digits else digitsValue digits)
    else none

def readDigits? (negative : Bool) (s : List Char) : Option Number :=
  let whole := s.takeWhile Char.isDigit
  let rest := s.dropWhile Char.isDigit
  let (fraction, rest) := match rest with
    | '.' :: rest => (rest.takeWhile Char.isDigit, rest.dropWhile Char.isDigit)
    | rest => ([], rest)
  if whole.isEmpty && fraction.isEmpty then none
  else (readExponent? rest).map fun power =>
    ofScientific negative (digitsValue (whole ++ fraction)) (power - fraction.length)

def ofText? (s : String) : Option Number :=
  let (negative, body) := match s.toList with
    | '-' :: rest => (true, rest)
    | '+' :: rest => (false, rest)
    | rest => (false, rest)
  let word := String.ofList (body.map Char.toLower)
  if word = "inf" || word = "infinity" then some (infinity negative)
  else if word = "nan" then some (ofMagnitude negative 0x7ff8000000000000)
  else readDigits? negative body

end CategorizedIndex.Number
