/-! # Numbers

A number is a pattern of 64 bits read as IEEE 754 binary64. Keeping the pattern
keeps the sign of zero and the payload of a NaN, which both show in the order of
numbers. Arithmetic is exact on integers and rounds once, to nearest, ties to the
even significand.
-/
namespace CategorizedIndex

structure Number where
  bits : UInt64
  deriving DecidableEq

namespace Number

def magnitude (x : Number) : Nat := x.bits.toNat % Nat.pow 2 63

def isNegative (x : Number) : Bool := decide (Nat.pow 2 63 ≤ x.bits.toNat)

def infinityMagnitude : Nat := 0x7ff0000000000000

def isNaN (x : Number) : Bool := decide (infinityMagnitude < x.magnitude)

def isInfinite (x : Number) : Bool := decide (x.magnitude = infinityMagnitude)

def isFinite (x : Number) : Bool := decide (x.magnitude < infinityMagnitude)

def ofMagnitude (negative : Bool) (magnitude : Nat) : Number :=
  ⟨UInt64.ofNat ((if negative then Nat.pow 2 63 else 0) + magnitude)⟩

def zero : Number := ofMagnitude false 0
def infinity (negative : Bool) : Number := ofMagnitude negative infinityMagnitude

/-- What an operation without a result returns: negative and quiet. -/
def invalid : Number := ⟨0xfff8000000000000⟩

/-- A NaN operand passes through with its quiet bit set. -/
def quieted (x : Number) : Number := ⟨x.bits ||| 0x0008000000000000⟩

/-- Place of a number in the IEEE total order: negative NaNs, negative numbers,
the two zeros, positive numbers, positive NaNs. -/
def rank (x : Number) : Int :=
  if x.isNegative then -(x.magnitude : Int) - 1 else x.magnitude

def cmp (x y : Number) : Ordering := compare x.rank y.rank

/-- Equality of values: a NaN equals nothing and the two zeros are equal. -/
def same (x y : Number) : Bool :=
  !x.isNaN && !y.isNaN && (x.bits == y.bits || (x.magnitude == 0 && y.magnitude == 0))

def fractionBits : Nat := 52

/-- Every finite number is a whole count of the least positive one. -/
def stepExponent : Nat := 1074

def significand (x : Number) : Nat :=
  let fraction := x.magnitude % Nat.pow 2 fractionBits
  if x.magnitude < Nat.pow 2 fractionBits then fraction else Nat.pow 2 fractionBits + fraction

/-- Binary exponent of the significand, counted from the least positive number. -/
def exponent (x : Number) : Nat := x.magnitude / Nat.pow 2 fractionBits - 1

def steps (x : Number) : Nat := x.significand * Nat.pow 2 x.exponent

/-- The quotient rounded to the nearest integer, ties to the even one. -/
def divToNearest (num den : Nat) : Nat :=
  let q := num / den
  let twice := 2 * (num % den)
  if den < twice || (den == twice && q % 2 == 1) then q + 1 else q

/-- The number nearest to the ratio, ties to the even significand; beyond the
largest finite number it is infinite. A carry out of the significand moves to
the exponent field by itself, because the two fields are adjacent. -/
def ofRatio (negative : Bool) (num den : Nat) : Number :=
  if num = 0 || den = 0 then ofMagnitude negative 0
  else
    let size : Int := (num.log2 : Int) - den.log2
    let scaled (e : Int) : Nat × Nat := (num * Nat.pow 2 (-e).toNat, den * Nat.pow 2 e.toNat)
    let tight := scaled (size - 53)
    let e := max (if tight.1 / tight.2 < Nat.pow 2 53 then size - 53 else size - 52) (-stepExponent)
    let (n, d) := scaled e
    let magnitude := (e + stepExponent).toNat * Nat.pow 2 fractionBits + divToNearest n d
    if infinityMagnitude ≤ magnitude then infinity negative else ofMagnitude negative magnitude

def ofNat (n : Nat) : Number := ofRatio false n 1

def ofInt (n : Int) : Number := ofRatio (n < 0) n.natAbs 1

def signedSteps (x : Number) : Int := if x.isNegative then -(x.steps : Int) else x.steps

def add (x y : Number) : Number :=
  if x.isNaN then x.quieted
  else if y.isNaN then y.quieted
  else if x.isInfinite then
    if y.isInfinite && x.isNegative != y.isNegative then invalid else x
  else if y.isInfinite then y
  else
    let total := x.signedSteps + y.signedSteps
    if total = 0 then ofMagnitude (x.isNegative && y.isNegative) 0
    else ofRatio (total < 0) total.natAbs (Nat.pow 2 stepExponent)

def mulFinite (x y : Number) : Number :=
  ofRatio (x.isNegative != y.isNegative) (x.steps * y.steps) (Nat.pow 2 (2 * stepExponent))

def divFinite (x y : Number) : Number :=
  ofRatio (x.isNegative != y.isNegative) x.steps y.steps

def negated (x : Number) : Number := ⟨x.bits ^^^ 0x8000000000000000⟩

end Number

end CategorizedIndex
