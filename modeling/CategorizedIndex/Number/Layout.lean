import CategorizedIndex.Number.Shortest
import CategorizedIndex.Text.Digits

/-! # Written numbers

Two ways of writing a number in its shortest digits: as plain text, always
positional, and as a member of a data format, where large and small numbers have
an exponent and whole ones a point.
-/
namespace CategorizedIndex

/-- How the digits of a finite number are set. -/
structure NumberLayout where
  /-- Whether a number whose first digit has this power of ten is positional. -/
  positional : Int → Bool
  /-- Whether a whole number ends in a point and a zero. -/
  wholePoint : Bool
  tie : Tie

namespace NumberLayout

def text : NumberLayout := ⟨fun _ => true, false, .up⟩

/-- Positional from `1e-5` to below `1e16`. -/
def data : NumberLayout := ⟨fun power => -5 ≤ power && power ≤ 15, true, .toEven⟩

end NumberLayout

namespace Decimal

def digitChars (d : Decimal) : List Char := Text.decimal d.digits

/-- Count of digits before the point; not positive when zeros follow the point. -/
def pointPlace (d : Decimal) : Int := d.digitChars.length + d.scale

def setPositional (d : Decimal) (wholePoint : Bool) : List Char :=
  let digits := d.digitChars
  let place := d.pointPlace
  if place ≤ 0 then ['0', '.'] ++ List.replicate (-place).toNat '0' ++ digits
  else if digits.length ≤ place.toNat then
    digits ++ List.replicate (place.toNat - digits.length) '0' ++
      (if wholePoint then ['.', '0'] else [])
  else digits.take place.toNat ++ '.' :: digits.drop place.toNat

def setExponential (d : Decimal) : List Char :=
  let power := d.pointPlace - 1
  let mantissa := match d.digitChars with
    | first :: rest@(_ :: _) => first :: '.' :: rest
    | digits => digits
  mantissa ++ ['e', if power < 0 then '-' else '+'] ++ Text.decimal power.natAbs

end Decimal

namespace Number

/-- A finite number; the zeros are positional. -/
def set (layout : NumberLayout) (x : Number) : List Char :=
  let d := x.shortest layout.tie
  let body :=
    if d.digits = 0 || layout.positional (d.pointPlace - 1) then d.setPositional layout.wholePoint
    else d.setExponential
  if x.isNegative then '-' :: body else body

def toText (x : Number) : String :=
  if x.isNaN then "NaN"
  else if x.isInfinite then if x.isNegative then "-inf" else "inf"
  else String.ofList (x.set .text)

end Number

end CategorizedIndex
