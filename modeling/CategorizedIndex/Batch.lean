import CategorizedIndex.Change
import CategorizedIndex.Config
import CategorizedIndex.SortKey

/-! # Prepared batches

Everything about a change that can fail on its own is decided here, before the
tree is looked at: its origin and ids, the value functions, the row filter, the
sort slots and the category paths of every row that the filter lets through.

A row has one path for each choice of one alternative per category column. The
alternatives of a column are the chains that its scalars expand to, without
repetition; a column without scalars has the null chain alone.
-/
namespace CategorizedIndex

/-- One level of a category path. -/
structure CategoryStep where
  column : Nat
  value : Option Scalar
  descending : Bool
  deriving DecidableEq

abbrev CategoryPath := List CategoryStep

namespace CategoryStep

def sameValue : Option Scalar → Option Scalar → Bool
  | none, none => true
  | some a, some b => a.same b
  | _, _ => false

/-- Equality up to the values of numbers. -/
def same (a b : CategoryStep) : Bool :=
  a.column == b.column && sameValue a.value b.value && a.descending == b.descending

def samePath : CategoryPath → CategoryPath → Bool
  | [], [] => true
  | a :: as, b :: bs => a.same b && samePath as bs
  | _, _ => false

end CategoryStep

/-- Where and how an accepted row is placed. -/
structure Placing where
  unid : String
  values : ColumnValues
  slots : List Slot
  paths : List CategoryPath

/-- A row of a batch; one that the filter turned down has no placing. -/
structure PreparedRow where
  scopedId : ScopedId
  placing : Option Placing

structure Batch where
  removals : List ScopedId
  rows : List PreparedRow

abbrev RowFilter := Row → Bool

namespace Batch

def checkOrigin (origin : String) : Except Error Unit :=
  if origin = "" then .error .emptyOrigin
  else if origin = ScopedId.categoryOrigin then .error .reservedOrigin
  else .ok ()

def checkId (origin : String) (id : UInt64) : Except Error Unit :=
  if (ScopedId.mk origin id).isCategory then .error (.reservedId origin id) else .ok ()

/-- The values of a row after the value functions of the columns, in order; each
sees the results of those before it. -/
def computeValues (columns : List Column) (row : Row) : Except Error ColumnValues :=
  match columns with
  | [] => .ok row.values
  | column :: rest =>
    match column.compute with
    | none => computeValues rest row
    | some compute =>
      match compute row with
      | .ok value => computeValues rest { row with values := row.values.insert column.item value }
      | .error message =>
        .error (.valueFunction column.item (message ++ " (row " ++ row.scopedId.toText ++ ")"))

def documentSlots (config : Config) (values : ColumnValues) : List Slot :=
  config.documentSortColumns.map fun column =>
    .ofScalar ((values[column.item]?).bind (·.sortValue?)) column.isDescending

/-- A text falls into its non-empty segments between separators; one without such
segments is null. -/
def segments (separator : Char) : Scalar → List (Option Scalar)
  | .text s =>
    match (Text.fields separator s.toList).filter (!·.isEmpty) with
    | [] => [none]
    | parts => parts.map fun part => some (.text (String.ofList part))
  | v => [some v]

def addPath (known : List CategoryPath) (path : CategoryPath) : List CategoryPath :=
  if known.any (CategoryStep.samePath · path) then known else known ++ [path]

/-- The distinct chains of one category column. -/
def alternatives (separator : Char) (index : Nat) (column : Column) (values : ColumnValues) :
    List CategoryPath :=
  let step (value : Option Scalar) : CategoryStep := ⟨index, value, column.isDescending⟩
  match (values.getD column.item .null).scalars with
  | [] => [[step none]]
  | scalars => (scalars.map fun v => (segments separator v).map step).foldl addPath []

def crossed (paths alternatives : List CategoryPath) : List CategoryPath :=
  paths.flatMap fun path => alternatives.map (path ++ ·)

/-- The paths over the category columns among numbered columns. -/
def categoryPaths (config : Config) (values : ColumnValues) : List CategoryPath :=
  (config.columns.zipIdx.filter (·.1.isCategory)).foldl
    (fun paths (column, index) =>
      crossed paths (alternatives config.separator index column values))
    [[]]

def prepareRow (config : Config) (accept : Option RowFilter) (origin : String)
    (id : UInt64) (addition : Addition) : Except Error PreparedRow := do
  let scopedId : ScopedId := ⟨origin, id⟩
  let values ← computeValues config.columns ⟨scopedId, addition.unid, addition.values⟩
  let accepted := match accept with
    | some accept => accept ⟨scopedId, addition.unid, values⟩
    | none => true
  if accepted then
    .ok ⟨scopedId, some
      ⟨addition.unid, values, documentSlots config values, categoryPaths config values⟩⟩
  else .ok ⟨scopedId, none⟩

end Batch

/-- The change made ready for the tree, or the first fault: its origin, its ids,
then the value functions row by row. -/
def Change.prepare (change : Change) (config : Config) (accept : Option RowFilter) :
    Except Error Batch := do
  Batch.checkOrigin change.origin
  (change.removals.toList ++ change.additions.keys).forM (Batch.checkId change.origin)
  let rows ← change.additions.toList.mapM fun (id, addition) =>
    Batch.prepareRow config accept change.origin id addition
  .ok ⟨change.removals.toList.map (ScopedId.mk change.origin), rows⟩

end CategorizedIndex
