import CategorizedIndex.Change
import CategorizedIndex.Json.Instance
import CategorizedIndex.Time.Read
import CategorizedIndex.Tree.Snapshot

/-! # Stored changes and snapshots

Column values, changes and snapshots as data, and the first two back, for any library for JSON
and any texts of timestamps. A variant has a name, and content unless it holds nothing. A
record may have further members but none of its own twice, and those with a default may be
missing. Where keys repeat in a map, the last one counts.
-/
namespace CategorizedIndex

namespace Scalar

def toData (times : Timestamp.Library) : Scalar → Json.Data
  | text s => .variant "String" (.text s)
  | number x => .variant "Number" (.number x)
  | timestamp t => .variant "DateTime" (.text (times.write t))

def ofNode? (lib : Json.Library) (times : Timestamp.Library) (n : lib.Node) : Option Scalar :=
  match lib.variant? n with
  | some ("String", some content) => (lib.text? content).map text
  | some ("Number", some content) => (lib.number? content).map number
  | some ("DateTime", some content) => (lib.text? content).bind fun s =>
    (times.read? s).map timestamp
  | _ => none

end Scalar

namespace ColumnValue

def toData (times : Timestamp.Library) : ColumnValue → Json.Data
  | null => .mark "Null"
  | single v => .variant "Scalar" (v.toData times)
  | list vs => .variant "List" (.list (vs.map (·.toData times)))

def ofNode? (lib : Json.Library) (times : Timestamp.Library) (n : lib.Node) :
    Option ColumnValue :=
  match lib.variant? n with
  | some ("Null", none) => some null
  | some ("Null", some content) => if lib.isNull content then some null else none
  | some ("Scalar", some content) => (Scalar.ofNode? lib times content).map single
  | some ("List", some content) => (lib.items? content).bind fun items =>
    (items.mapM (Scalar.ofNode? lib times)).map list
  | _ => none

end ColumnValue

namespace ColumnValues

def toData (times : Timestamp.Library) (values : ColumnValues) : Json.Data :=
  .map (values.toList.map fun (item, value) => (item, value.toData times))

def ofNode? (lib : Json.Library) (times : Timestamp.Library) (n : lib.Node) :
    Option ColumnValues := do
  let fields ← (← lib.entries? n).mapM fun (item, content) =>
    (ColumnValue.ofNode? lib times content).map (item, ·)
  some (fields.foldl (fun values (item, value) => values.insert item value) ∅)

end ColumnValues

namespace Addition

def toData (times : Timestamp.Library) (a : Addition) : Json.Data :=
  .record [("unid", .text a.unid), ("values", ColumnValues.toData times a.values)]

def ofNode? (lib : Json.Library) (times : Timestamp.Library) (n : lib.Node) :
    Option Addition := do
  match ← lib.contents? ["unid", "values"] n with
  | [some unid, some values] => some ⟨← lib.text? unid, ← ColumnValues.ofNode? lib times values⟩
  | _ => none

end Addition

namespace Change

def toData (times : Timestamp.Library) (c : Change) : Json.Data :=
  .record
    [ ("origin", .text c.origin),
      ("removals", .list (c.removals.toList.map .word)),
      ("additions", .wordMap (c.additions.toList.map fun (id, addition) =>
        (id, addition.toData times))) ]

def removalsOfNode? (lib : Json.Library) (n : lib.Node) : Option (Std.ExtTreeSet UInt64) := do
  let ids ← (← lib.items? n).mapM lib.word?
  some (ids.foldl (·.insert ·) ∅)

def additionsOfNode? (lib : Json.Library) (times : Timestamp.Library) (n : lib.Node) :
    Option (Std.ExtTreeMap UInt64 Addition) := do
  let additions ← (← lib.wordEntries? n).mapM fun (id, content) =>
    (Addition.ofNode? lib times content).map (id, ·)
  some (additions.foldl (fun known (id, addition) => known.insert id addition) ∅)

def ofNode? (lib : Json.Library) (times : Timestamp.Library) (n : lib.Node) : Option Change := do
  match ← lib.contents? ["origin", "removals", "additions"] n with
  | [some origin, removals, additions] =>
    let removals ← match removals with
      | some n => removalsOfNode? lib n
      | none => some ∅
    let additions ← match additions with
      | some n => additionsOfNode? lib times n
      | none => some ∅
    some ⟨← lib.text? origin, removals, additions⟩
  | _ => none

def store (lib : Json.Library) (times : Timestamp.Library) (c : Change) : String :=
  lib.write (c.toData times)

def load? (lib : Json.Library) (times : Timestamp.Library) (text : String) : Option Change :=
  (lib.read? text).bind (ofNode? lib times)

end Change

namespace Snapshot

def toData (times : Timestamp.Library) (s : Snapshot) : Json.Data :=
  .record
    [ ("scoped_id",
        .record [("origin", .text s.scopedId.origin), ("id", .word s.scopedId.id)]),
      ("unid", .text s.unid),
      ("is_category", .bool s.isCategory),
      ("column_values", ColumnValues.toData times s.values),
      ("level", count s.level),
      ("sibling_index", count s.rank),
      ("position", .list (s.position.map count)),
      ("child_count", count s.counters.children),
      ("child_category_count", count s.counters.childCategories),
      ("child_document_count", count s.counters.childDocuments),
      ("descendant_count", count s.counters.descendants),
      ("descendant_category_count", count s.counters.descendantCategories),
      ("descendant_document_count", count s.counters.descendantDocuments) ]
where
  count (n : Nat) : Json.Data := .word (.ofNat n)

end Snapshot

/-! ## The texts in use -/

namespace ColumnValue

def toJson (v : ColumnValue) : Json := (v.toData Timestamp.library).toJson

def ofJson? (j : Json) : Option ColumnValue := ofNode? Json.library Timestamp.library j

end ColumnValue

namespace Change

def toText (c : Change) : String := c.store Json.library Timestamp.library

def ofText? (text : String) : Option Change := load? Json.library Timestamp.library text

end Change

def Snapshot.toJson (s : Snapshot) : Json := (s.toData Timestamp.library).toJson

end CategorizedIndex
