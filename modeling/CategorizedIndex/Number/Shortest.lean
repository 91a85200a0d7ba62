import CategorizedIndex.Number.Basic

/-! # Shortest decimals

The decimal with the fewest digits among those that round to a given number, and
of these the nearest to it. Between two neighbours on a decimal grid the value
itself lies, so a grid holds a decimal that rounds to the number exactly when one
of the value's two neighbours does.
-/
namespace CategorizedIndex

/-- The decimal `digits * 10 ^ scale`. -/
structure Decimal where
  digits : Nat
  scale : Int
  deriving DecidableEq

/-- Which of two equally near decimals is taken. -/
inductive Tie
  | up
  | toEven
  deriving DecidableEq

namespace Number

/-- A positive value and the reals that round to it, all over one denominator. -/
structure Rounding where
  low : Nat
  value : Nat
  high : Nat
  den : Nat
  closed : Bool

/-- The gap below a power of two is half the gap above it. -/
def rounding (x : Number) : Rounding :=
  let m := x.significand
  let unit := Nat.pow 2 x.exponent
  let below := if m = Nat.pow 2 fractionBits && x.exponent ≠ 0 then 1 else 2
  ⟨(4 * m - below) * unit, 4 * m * unit, (4 * m + 2) * unit, Nat.pow 2 (stepExponent + 2),
    m % 2 == 0⟩

namespace Rounding

def scaleUp (scale : Int) : Nat := Nat.pow 10 (-scale).toNat
def unitOf (r : Rounding) (scale : Int) : Nat := r.den * Nat.pow 10 scale.toNat

/-- Whether `digits * 10 ^ scale` rounds to the value. -/
def holds (r : Rounding) (scale : Int) (digits : Nat) : Bool :=
  let point := digits * r.unitOf scale
  let low := r.low * scaleUp scale
  let high := r.high * scaleUp scale
  if r.closed then low ≤ point && point ≤ high else low < point && point < high

/-- The neighbour of the value on a decimal grid that rounds to it, the nearer
one if both do. -/
def onGrid (r : Rounding) (tie : Tie) (scale : Int) : Option Nat :=
  let value := r.value * scaleUp scale
  let unit := r.unitOf scale
  let floor := value / unit
  match r.holds scale floor, r.holds scale (floor + 1) with
  | false, false => none
  | true, false => some floor
  | false, true => some (floor + 1)
  | true, true =>
    match compare (2 * (value % unit)) unit with
    | .lt => some floor
    | .gt => some (floor + 1)
    | .eq => some (if tie = .toEven && floor % 2 == 0 then floor else floor + 1)

/-- The least `k` with the value below `10 ^ k`. The first guess is never too
large, since it takes the value for a power of two not above it. -/
def decimalSize (r : Rounding) : Int :=
  let guess := ((r.value.log2 : Int) - r.den.log2) * 30103 / 100000
  let below (k : Int) : Bool := r.value * scaleUp k < r.unitOf k
  if below guess then guess else if below (guess + 1) then guess + 1 else guess + 2

/-- Seventeen digits always suffice. -/
def shortest (r : Rounding) (tie : Tie) : Decimal :=
  let size := r.decimalSize
  let scales := (List.range 17).map fun (n : Nat) => size - 1 - (n : Int)
  match scales.findSome? fun scale => (r.onGrid tie scale).map (Decimal.mk · scale) with
  | some decimal => decimal
  | none => ⟨0, 0⟩

end Rounding

end Number

/-- Trailing zeros move to the scale; `fuel` bounds their number. -/
def Decimal.stripped (fuel : Nat) (d : Decimal) : Decimal :=
  match fuel with
  | 0 => d
  | fuel + 1 =>
    if d.digits % 10 = 0 && d.digits ≠ 0 then
      (Decimal.mk (d.digits / 10) (d.scale + 1)).stripped fuel
    else d

/-- The shortest decimal of a finite number without its sign. -/
def Number.shortest (x : Number) (tie : Tie) : Decimal :=
  if x.magnitude = 0 then ⟨0, 0⟩ else (x.rounding.shortest tie).stripped 17

end CategorizedIndex
