import CategorizedIndex.Position
import CategorizedIndex.Tree.Basic

/-! # Snapshots

A copy of one entry with its level and position. The root has none. All placements
of a scoped id are found in the order of the tree.
-/
namespace CategorizedIndex

structure Snapshot where
  scopedId : ScopedId
  unid : String
  isCategory : Bool
  values : ColumnValues
  level : Nat
  rank : Nat
  position : Position
  counters : Counters
  deriving DecidableEq

namespace Tree

def snapshot? (t : Tree) (id : EntryId) : Option Snapshot := do
  let e ← t.get? id
  let level ← t.level? id
  some ⟨e.scopedId, e.unid, e.isCategory, e.values, level, e.rank, t.position id, e.counters⟩

def find (t : Tree) (id : ScopedId) : List Snapshot :=
  ((t.placementsOf id).filterMap t.snapshot?).mergeSort fun a b =>
    (Position.cmp a.position b.position).isLE

end Tree

end CategorizedIndex
