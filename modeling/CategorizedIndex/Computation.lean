import CategorizedIndex.Column

/-! # Computations

A small language of value functions. Items that a row lacks count as null, and
null has no scalars.
-/
namespace CategorizedIndex

inductive Computation
  | const (value : ColumnValue)
  | copy (item : String)
  | require (item : String)
  | unid
  | scopedId
  | join (items : List String) (separator : String)
  | sum (items : List String)
  | collect (items : List String)
  | count (item : String)
  | failOnId (id : UInt64) (message : String)

namespace Computation

def valueOf (row : Row) (item : String) : ColumnValue := row.values.getD item .null

def scalarsOf (row : Row) (items : List String) : List Scalar :=
  items.flatMap fun item => (valueOf row item).scalars

def plainText (v : Scalar) : String := v.text?.getD v.toText

def sumOf (total : Number) : List Scalar → Except String Number
  | [] => .ok total
  | .number x :: rest => sumOf (total.add x) rest
  | v :: _ => .error ("not a number: " ++ v.toText)

def ofText (s : String) : ColumnValue := .single (.text s)

def ofNumber (x : Number) : ColumnValue := .single (.number x)

def eval : Computation → ValueFunction
  | const value, _ => .ok value
  | copy item, row => .ok (valueOf row item)
  | require item, row =>
    match valueOf row item with
    | .null => .error (item ++ " is required")
    | value => .ok value
  | unid, row => .ok (ofText row.unid)
  | scopedId, row => .ok (ofText row.scopedId.toText)
  | join items separator, row =>
    .ok (ofText (separator.intercalate ((scalarsOf row items).map plainText)))
  | sum items, row => (sumOf .zero (scalarsOf row items)).map ofNumber
  | collect items, row => .ok (.list (scalarsOf row items))
  | count item, row => .ok (ofNumber (.ofNat (scalarsOf row [item]).length))
  | failOnId id message, row =>
    if row.scopedId.id = id then .error message
    else .ok (ofNumber (.ofNat row.scopedId.id.toNat))

end Computation

end CategorizedIndex
