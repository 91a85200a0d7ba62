import CategorizedIndex.Number.Layout
import CategorizedIndex.ScopedId
import CategorizedIndex.Text.LowerCase
import CategorizedIndex.Time.Timestamp

/-! # Column values

A scalar is a text, a number or a timestamp; the value of a column is null, one
scalar or a list of scalars. Scalars of one kind are ordered: texts without regard
to case first and exactly second, numbers in the IEEE total order, timestamps in
time. Equality of values is another relation: it takes numbers by value.
-/
namespace CategorizedIndex

inductive ScalarKind
  | text
  | number
  | timestamp
  deriving DecidableEq

namespace ScalarKind

def name : ScalarKind → String
  | text => "string"
  | number => "number"
  | timestamp => "datetime"

/-- Order of the kinds where siblings may mix them. -/
def rank : ScalarKind → Nat
  | number => 0
  | timestamp => 1
  | text => 2

end ScalarKind

inductive Scalar
  | text (s : String)
  | number (x : Number)
  | timestamp (t : Timestamp)
  deriving DecidableEq

namespace Scalar

def kind : Scalar → ScalarKind
  | text _ => .text
  | number _ => .number
  | timestamp _ => .timestamp

def text? : Scalar → Option String
  | text s => some s
  | _ => none

def number? : Scalar → Option Number
  | number x => some x
  | _ => none

def timestamp? : Scalar → Option Timestamp
  | timestamp t => some t
  | _ => none

def isEmptyText (v : Scalar) : Bool := v == text ""

def compareText (a b : String) : Ordering :=
  (compare (Text.lower a.toList) (Text.lower b.toList)).then (compare a.toList b.toList)

/-- The order of two scalars of one kind. -/
def cmp? : Scalar → Scalar → Option Ordering
  | text a, text b => some (compareText a b)
  | number a, number b => some (a.cmp b)
  | timestamp a, timestamp b => some (a.cmp b)
  | _, _ => none

def same : Scalar → Scalar → Bool
  | text a, text b => a == b
  | number a, number b => a.same b
  | timestamp a, timestamp b => a == b
  | _, _ => false

/-- Texts stand between single quotes, without escapes. -/
def toText : Scalar → String
  | text s => "'" ++ s ++ "'"
  | number x => x.toText
  | timestamp t => t.toText

theorem cmp?_eq_none_iff {a b : Scalar} : cmp? a b = none ↔ a.kind ≠ b.kind := by
  cases a <;> cases b <;> simp [cmp?, kind]

end Scalar

inductive ColumnValue
  | null
  | single (v : Scalar)
  | list (vs : List Scalar)
  deriving DecidableEq

namespace ColumnValue

instance : Inhabited ColumnValue := ⟨null⟩

def ofScalar? : Option Scalar → ColumnValue
  | none => null
  | some v => single v

def scalars : ColumnValue → List Scalar
  | null => []
  | single v => [v]
  | list vs => vs

/-- The first scalar, with an empty text as null. -/
def sortValue? (v : ColumnValue) : Option Scalar :=
  v.scalars.head?.filter (!·.isEmptyText)

def sameScalars : List Scalar → List Scalar → Bool
  | [], [] => true
  | a :: as, b :: bs => a.same b && sameScalars as bs
  | _, _ => false

def same : ColumnValue → ColumnValue → Bool
  | null, null => true
  | single a, single b => a.same b
  | list as, list bs => sameScalars as bs
  | _, _ => false

end ColumnValue

abbrev ColumnValues := Std.ExtTreeMap String ColumnValue

/-- What value functions and row filters see. -/
structure Row where
  scopedId : ScopedId
  unid : String
  values : ColumnValues

end CategorizedIndex
