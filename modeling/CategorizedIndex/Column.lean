import CategorizedIndex.Text.Quoted
import CategorizedIndex.Value

/-! # Columns

A column reads one item of every row. A category column groups the rows by the
value of its item, a sorted column orders them, and a column with a value function
sets its item itself, from the row and the columns declared before it. A formula
is only carried along.
-/
namespace CategorizedIndex

inductive Direction
  | ascending
  | descending
  deriving DecidableEq

/-- A computed column: a value, or the text of a failure. -/
abbrev ValueFunction := Row → Except String ColumnValue

structure Column where
  title : String
  item : String
  isCategory : Bool
  direction : Option Direction
  formula : Option String
  compute : Option ValueFunction

namespace Column

def isSorted (c : Column) : Bool := c.direction.isSome

def isDescending (c : Column) : Bool := c.direction == some .descending

def ordersDocuments (c : Column) : Bool := !c.isCategory && c.isSorted

def withoutFunction (c : Column) : Column := { c with compute := none }

def directionText : Option Direction → String
  | none => "None"
  | some .ascending => "Some(Ascending)"
  | some .descending => "Some(Descending)"

def formulaText : Option String → String
  | none => "None"
  | some formula => "Some(" ++ Text.quoted formula ++ ")"

/-- All declarations of a column on one line. -/
def toText (c : Column) : String :=
  "VirtualViewColumn \x7b title: " ++ Text.quoted c.title ++
    ", item_name: " ++ Text.quoted c.item ++
    ", category: " ++ toString c.isCategory ++
    ", sort: " ++ directionText c.direction ++
    ", formula: " ++ formulaText c.formula ++
    ", value_function: " ++ toString c.compute.isSome ++ " \x7d"

end Column

end CategorizedIndex
