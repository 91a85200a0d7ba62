import CategorizedIndex.Value
import Std.Data.ExtTreeSet

/-! # Changes

A batch that one origin reports: ids it withdraws and rows it adds or replaces.
Both are kept in ascending order of ids. The order between a removal and an
addition of one id does not matter, since every removal comes first.
-/
namespace CategorizedIndex

structure Addition where
  unid : String
  values : ColumnValues
  deriving DecidableEq

structure Change where
  origin : String
  removals : Std.ExtTreeSet UInt64
  additions : Std.ExtTreeMap UInt64 Addition
  deriving DecidableEq

namespace Change

def empty (origin : String) : Change := ⟨origin, ∅, ∅⟩

def add (c : Change) (id : UInt64) (addition : Addition) : Change :=
  { c with additions := c.additions.insert id addition }

def remove (c : Change) (id : UInt64) : Change := { c with removals := c.removals.insert id }

def isEmpty (c : Change) : Bool := c.removals.isEmpty && c.additions.isEmpty

def sameValues (a b : ColumnValues) : Bool :=
  go a.toList b.toList
where
  go : List (String × ColumnValue) → List (String × ColumnValue) → Bool
    | [], [] => true
    | (i, v) :: as, (j, w) :: bs => i == j && v.same w && go as bs
    | _, _ => false

def sameAdditions : List (UInt64 × Addition) → List (UInt64 × Addition) → Bool
  | [], [] => true
  | (i, v) :: as, (j, w) :: bs =>
    i == j && v.unid == w.unid && sameValues v.values w.values && sameAdditions as bs
  | _, _ => false

/-- Equality up to the values of numbers. -/
def same (a b : Change) : Bool :=
  a.origin == b.origin && a.removals.toList == b.removals.toList &&
    sameAdditions a.additions.toList b.additions.toList

end Change

end CategorizedIndex
