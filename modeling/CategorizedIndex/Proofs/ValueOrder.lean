import CategorizedIndex.Column
import CategorizedIndex.Proofs.TotalOrder

/-! # The order of values

Values are ordered by what they are: numbers stand before timestamps, timestamps before texts
and null after every value; numbers stand in the IEEE total order, timestamps in time, texts
by their lower-case forms and exactly where these agree. A column takes this order as it is
or turns it round. What slots compare is this order.
-/
namespace CategorizedIndex

open Std

theorem Text.compare_eq_lt_iff {a b : List Char} : compare a b = .lt ↔ a < b := by
  induction a generalizing b with
  | nil => cases b <;> simp
  | cons c a ih =>
    cases b with
    | nil => simp
    | cons d b =>
      have hc : compare c d = .lt ↔ c < d := compareOfLessAndEq_eq_lt
      rw [List.compare_eq_compareLex, List.compareLex_cons_cons, ← List.compare_eq_compareLex,
        Ordering.then_eq_lt, hc, LawfulEqOrd.compare_eq_iff_eq, ih, List.cons_lt_cons_iff]

/-- Letters count in their lower case first. -/
def TextBefore (a b : String) : Prop :=
  Text.lower a.toList < Text.lower b.toList ∨
    (Text.lower a.toList = Text.lower b.toList ∧ a.toList < b.toList)

/-- One value stands before another, where `none` is null. -/
inductive ValueBefore : Option Scalar → Option Scalar → Prop
  | null (v : Scalar) : ValueBefore (some v) none
  | numberTimestamp (x : Number) (t : Timestamp) :
      ValueBefore (some (.number x)) (some (.timestamp t))
  | numberText (x : Number) (a : String) : ValueBefore (some (.number x)) (some (.text a))
  | timestampText (t : Timestamp) (a : String) :
      ValueBefore (some (.timestamp t)) (some (.text a))
  | numbers {x y : Number} (h : x.totalOrder y = .lt) :
      ValueBefore (some (.number x)) (some (.number y))
  | timestamps {t u : Timestamp}
      (h : t.seconds < u.seconds ∨ (t.seconds = u.seconds ∧ t.nanos < u.nanos)) :
      ValueBefore (some (.timestamp t)) (some (.timestamp u))
  | texts {a b : String} (h : TextBefore a b) : ValueBefore (some (.text a)) (some (.text b))

/-- The column puts one value before another. -/
def Column.Orders (c : Column) (v w : Option Scalar) : Prop :=
  if c.isDescending then ValueBefore w v else ValueBefore v w

theorem Scalar.compareText_eq_lt_iff {a b : String} : compareText a b = .lt ↔ TextBefore a b := by
  rw [compareText, Ordering.then_eq_lt, Text.compare_eq_lt_iff, Text.compare_eq_lt_iff,
    LawfulEqOrd.compare_eq_iff_eq]
  rfl

theorem Timestamp.cmp_eq_lt_iff {t u : Timestamp} :
    t.cmp u = .lt ↔ t.seconds < u.seconds ∨ (t.seconds = u.seconds ∧ t.nanos < u.nanos) := by
  rw [cmp, Ordering.then_eq_lt, compare_eq_lt, compare_eq_lt, LawfulEqOrd.compare_eq_iff_eq]

namespace Slot

instance : OrientedCmp compareValues := by
  rw [compareValues_eq_compareValuesBy]
  infer_instance

theorem compareScalars_eq_lt_iff {v w : Scalar} :
    compareScalars v w = .lt ↔ ValueBefore (some v) (some w) := by
  constructor
  · intro h
    match v, w with
    | .number x, .number y => exact .numbers ((Number.cmp_eq_totalOrder x y).symm.trans h)
    | .number x, .timestamp t => exact .numberTimestamp x t
    | .number x, .text a => exact .numberText x a
    | .timestamp t, .timestamp u => exact .timestamps (Timestamp.cmp_eq_lt_iff.mp h)
    | .timestamp t, .text a => exact .timestampText t a
    | .text a, .text b => exact .texts (Scalar.compareText_eq_lt_iff.mp h)
    | .timestamp t, .number x | .text a, .number x | .text a, .timestamp t => exact nomatch h
  · intro h
    cases h with
    | numberTimestamp x t | numberText x a | timestampText t a => rfl
    | numbers h => exact (Number.cmp_eq_totalOrder _ _).trans h
    | timestamps h => exact Timestamp.cmp_eq_lt_iff.mpr h
    | texts h => exact Scalar.compareText_eq_lt_iff.mpr h

theorem compareValues_eq_lt_iff {v w : Option Scalar} :
    compareValues v w = .lt ↔ ValueBefore v w := by
  cases v with
  | none => cases w <;> exact iff_of_false nofun nofun
  | some v =>
    cases w with
    | none => exact iff_of_true rfl (.null v)
    | some w => exact compareScalars_eq_lt_iff

theorem directed_eq_lt_iff {c : Column} {v w : Option Scalar} :
    directed c.isDescending (compareValues v w) = .lt ↔ c.Orders v w := by
  unfold directed Column.Orders
  split
  · rw [← OrientedCmp.eq_swap, compareValues_eq_lt_iff]
  · exact compareValues_eq_lt_iff

end Slot

end CategorizedIndex
