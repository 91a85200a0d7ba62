import CategorizedIndex.Json.Basic

/-! # Numbers of JSON texts

A written number is read in two roundings. The digits are gathered into a machine
word while it has room: digits of the whole part beyond that only count as powers
of ten, and digits of the fraction are dropped. The word is rounded to a number
and then scaled by a power of ten, itself a rounded number. The result can differ
from the nearest number in its last digit. A number too large for a finite one is
refused.
-/
namespace CategorizedIndex.JsonNumber

def maxWord : Nat := 0xffffffffffffffff

def digitOf (c : Char) : Nat := c.toNat - '0'.toNat

/-- Gathers digits while the word has room; returns the digits that are left. -/
def gather (word : Nat) : List Char → Nat × List Char
  | [] => (word, [])
  | c :: rest =>
    let next := word * 10 + digitOf c
    if maxWord < next then (word, c :: rest) else gather next rest

/-- The whole number, if the text has no fraction, no exponent, and room for it. -/
def toNat? (n : JsonNumber) : Option Nat :=
  match n.fraction, n.exponent, gather 0 n.whole with
  | none, none, (word, []) => if n.negative then none else some word
  | _, _, _ => none

def maxPower : Nat := 308

def powerOfTen (n : Nat) : Number := .ofNat (Nat.pow 10 n)

/-- Scales by a power of ten in steps of at most 308; `fuel` bounds the steps. -/
def scale? (x : Number) : Nat → Int → Option Number
  | 0, _ => some x
  | fuel + 1, power =>
    if power.natAbs ≤ maxPower then
      if 0 ≤ power then
        let scaled := x.mulFinite (powerOfTen power.natAbs)
        if scaled.isInfinite then none else some scaled
      else some (x.divFinite (powerOfTen power.natAbs))
    else if x.magnitude = 0 then some x
    else if 0 ≤ power then none
    else scale? (x.divFinite (powerOfTen maxPower)) fuel (power + maxPower)

def maxExponent : Nat := 0x7fffffff

def signed (negative : Bool) (x : Number) : Number := if negative then x.negated else x

def toNumber? (n : JsonNumber) : Option Number :=
  let (word, overflow) := gather 0 n.whole
  let (word, dropped) := gather word (n.fraction.getD [])
  let places := (n.fraction.getD []).length - dropped.length
  let shift : Int := (overflow.length : Int) - places
  let scaled (power : Int) : Option Number :=
    (scale? (.ofNat word) (power.natAbs / maxPower + 1) power).map (signed n.negative)
  match n.exponent with
  | none => scaled shift
  | some (negative, digits) =>
    let power := Text.digitsValue digits
    if maxExponent < power then
      if word ≠ 0 && !negative then none else some (signed n.negative .zero)
    else scaled (if negative then shift - power else shift + power)

end CategorizedIndex.JsonNumber
