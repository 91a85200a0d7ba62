import CategorizedIndex.Tree.Commit
import CategorizedIndex.Tree.Integrity
import CategorizedIndex.Tree.Kinds
import CategorizedIndex.Tree.Snapshot

/-! # Indexes

An index has a name, a configuration, perhaps a filter for rows, and the tree it
maintains. A change is prepared and checked in full before the tree is touched, so
one that fails leaves no trace.
-/
namespace CategorizedIndex

structure Index where
  name : String
  config : Config
  filter : Option RowFilter
  tree : Tree

namespace Index

/-- An empty index of a valid configuration. -/
def build (name : String) (config : Config) (filter : Option RowFilter) : Except Error Index := do
  config.validate
  .ok ⟨name, config, filter, .empty⟩

/-- The index after a change, and what the change did. -/
def apply (x : Index) (change : Change) : Except Error (Index × Stats) := do
  let batch ← change.prepare x.config x.filter
  if x.config.strict then x.tree.checkKinds x.config batch
  let (tree, stats) := x.tree.commit x.config batch
  .ok ({ x with tree := tree }, stats)

def withdrawal (x : Index) (origin : String) : Change :=
  (x.tree.idsOf origin).foldl Change.remove (.empty origin)

def removeOrigin (x : Index) (origin : String) : Except Error (Index × Stats) :=
  x.apply (x.withdrawal origin)

def verifyIntegrity (x : Index) : Except Error Unit := x.tree.verifyIntegrity x.config.strict

def rootCounters (x : Index) : Counters :=
  ((x.tree.get? Tree.root).map (·.counters)).getD .none

def toText (x : Index) : String :=
  "View \x7b name: " ++ Text.quoted x.name ++ ", descendants: " ++
    toString x.rootCounters.descendants ++ " \x7d"

def treeText (x : Index) : String :=
  "ViewTree \x7b entries: " ++ toString x.tree.arena.size ++ ", columns: " ++
    toString x.config.columns.length ++ ", acceptance: " ++ toString x.filter.isSome ++ " \x7d"

end Index

end CategorizedIndex
