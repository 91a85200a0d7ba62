import CategorizedIndex.Column
import CategorizedIndex.Error
import CategorizedIndex.Text.Alphanumeric
import CategorizedIndex.Text.Blank

/-! # Configuration

What an index is built from: its columns, the character that cuts a category value
into a path of nested categories, whether categories start expanded, and whether
siblings may mix kinds of values.
-/
namespace CategorizedIndex

inductive Expansion
  | expanded
  | collapsed
  deriving DecidableEq

structure Config where
  separator : Char
  expansion : Expansion
  strict : Bool
  columns : List Column

namespace Config

def standard : Config := ⟨'\\', .expanded, true, []⟩

def categoryColumns (c : Config) : List Column := c.columns.filter (·.isCategory)

def documentSortColumns (c : Config) : List Column := c.columns.filter (·.ordersDocuments)

def separatorAllowed (c : Char) : Bool := !Text.isAlphanumeric c && !Text.isBlank c

/-- The first fault of a column, given the items declared before it. -/
def columnFault? (declared : List String) (c : Column) : Option Error :=
  if c.item.toList.all Text.isBlank then some (.emptyItemName c.title)
  else if declared.contains c.item then some (.repeatedItem c.item)
  else if c.isCategory && !c.isSorted then some (.unsortedCategory c.item)
  else if c.formula.isSome && c.compute.isSome then some (.formulaAndFunction c.item)
  else none

def columnsFault? (declared : List String) : List Column → Option Error
  | [] => none
  | c :: rest =>
    match columnFault? declared c with
    | some e => some e
    | none => columnsFault? (c.item :: declared) rest

/-- The first fault: the separator, then the columns in order. -/
def fault? (c : Config) : Option Error :=
  if separatorAllowed c.separator then columnsFault? [] c.columns
  else some (.badSeparator c.separator)

def validate (c : Config) : Except Error Unit :=
  match c.fault? with
  | some e => .error e
  | none => .ok ()

/-- A configuration as it can be stored: value functions are dropped. -/
def withoutFunctions (c : Config) : Config :=
  { c with columns := c.columns.map (·.withoutFunction) }

theorem validate_eq_ok_iff {c : Config} : c.validate = .ok () ↔ c.fault? = none := by
  unfold validate
  cases c.fault? <;> simp

end Config

end CategorizedIndex
