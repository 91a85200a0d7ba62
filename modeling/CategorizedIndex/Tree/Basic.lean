import CategorizedIndex.Batch
import CategorizedIndex.Tree.Siblings

/-! # Tree

The entries of an index, filed under their handles. An entry knows its parent and
its children; documents are placed under categories, categories under each other,
and all under the root. An index of placements finds the entries of a scoped id in
the order of their creation.

Handles and category numbers only grow, so none is ever given twice. Changing the
children of an entry leaves their ranks stale until the entry is renumbered.
-/
namespace CategorizedIndex

/-- How many entries stand below an entry, directly and at any depth. -/
structure Counters where
  children : Nat
  childCategories : Nat
  childDocuments : Nat
  descendants : Nat
  descendantCategories : Nat
  descendantDocuments : Nat
  deriving DecidableEq

namespace Counters

def none : Counters := ⟨0, 0, 0, 0, 0, 0⟩

def childAttached (c : Counters) (isCategory : Bool) : Counters :=
  if isCategory then
    { c with children := c.children + 1, childCategories := c.childCategories + 1 }
  else { c with children := c.children + 1, childDocuments := c.childDocuments + 1 }

def childDetached (c : Counters) (isCategory : Bool) : Counters :=
  if isCategory then
    { c with children := c.children - 1, childCategories := c.childCategories - 1 }
  else { c with children := c.children - 1, childDocuments := c.childDocuments - 1 }

def descendantAttached (c : Counters) (isCategory : Bool) : Counters :=
  if isCategory then
    { c with
      descendants := c.descendants + 1
      descendantCategories := c.descendantCategories + 1 }
  else
    { c with
      descendants := c.descendants + 1
      descendantDocuments := c.descendantDocuments + 1 }

def descendantDetached (c : Counters) (isCategory : Bool) : Counters :=
  if isCategory then
    { c with
      descendants := c.descendants - 1
      descendantCategories := c.descendantCategories - 1 }
  else
    { c with
      descendants := c.descendants - 1
      descendantDocuments := c.descendantDocuments - 1 }

def toList (c : Counters) : List Nat :=
  [c.children, c.childCategories, c.childDocuments, c.descendants, c.descendantCategories,
    c.descendantDocuments]

theorem descendantDetached_descendantAttached (c : Counters) (isCategory : Bool) :
    (c.descendantAttached isCategory).descendantDetached isCategory = c := by
  cases isCategory <;> rfl

end Counters

/-- One placement of a document, or a category. The rank counts from 1 among the
siblings and is 0 for the root. -/
structure Entry where
  scopedId : ScopedId
  unid : String
  key : SortKey
  values : ColumnValues
  parent : Option EntryId
  children : Siblings
  rank : Nat
  counters : Counters

namespace Entry

def isCategory (e : Entry) : Bool := e.scopedId.isCategory
def isDocument (e : Entry) : Bool := !e.isCategory
def isRoot (e : Entry) : Bool := e.parent.isNone

def new (scopedId : ScopedId) (unid : String) (key : SortKey) (values : ColumnValues)
    (parent : Option EntryId) : Entry :=
  ⟨scopedId, unid, key, values, parent, .empty, 0, .none⟩

end Entry

structure Tree where
  arena : Std.ExtTreeMap EntryId Entry
  placements : Std.ExtTreeMap ScopedId (List EntryId)
  nextEntry : EntryId
  lastCategory : Nat
  /-- Entries whose children have stale ranks. -/
  unnumbered : Std.ExtTreeSet EntryId

namespace Tree

def root : EntryId := 0

def empty : Tree where
  arena := (∅ : Std.ExtTreeMap EntryId Entry).insert root
    (.new .root "" (.category 0 none false .root) ∅ none)
  placements := (∅ : Std.ExtTreeMap ScopedId (List EntryId)).insert .root [root]
  nextEntry := 1
  lastCategory := 0
  unnumbered := ∅

def get? (t : Tree) (id : EntryId) : Option Entry := t.arena[id]?

def childrenOf (t : Tree) (id : EntryId) : Siblings :=
  ((t.get? id).map (·.children)).getD .empty

def placementsOf (t : Tree) (id : ScopedId) : List EntryId := t.placements.getD id []

/-- The entry and those above it, as far as `fuel` goes. -/
def climb (t : Tree) : Nat → Option EntryId → List (EntryId × Entry)
  | 0, _ | _, none => []
  | fuel + 1, some id =>
    match t.get? id with
    | none => []
    | some e => (id, e) :: t.climb fuel e.parent

/-- The entry itself and everything above it, up to the root. No chain of parents
is longer than the arena is large. -/
def lineage (t : Tree) (id : EntryId) : List (EntryId × Entry) := t.climb t.arena.size (some id)

def position (t : Tree) (id : EntryId) : List Nat :=
  (((t.lineage id).filter fun (_, e) => e.parent.isSome).map fun (_, e) => e.rank).reverse

/-- Depth below the top level; the root and entries cut off from it have none. -/
def level? (t : Tree) (id : EntryId) : Option Nat :=
  match (t.lineage id).getLast? with
  | some (_, e) =>
    if e.isRoot && 2 ≤ (t.lineage id).length then some ((t.lineage id).length - 2) else none
  | none => none

def descend? (t : Tree) (id : EntryId) : List Nat → Option EntryId
  | [] => some id
  | rank :: rest => do
    let (_, child) ← (t.childrenOf id).atRank? rank
    t.descend? child rest

def entryAt? (t : Tree) (position : List Nat) : Option EntryId :=
  if position = [] then none else t.descend? root position

def entryCount (t : Tree) : Nat := t.arena.size - 1

def documents (t : Tree) : List ScopedId := t.placements.keys.filter (·.isDocument)

def documentCount (t : Tree) : Nat := t.documents.length

def origins (t : Tree) : List String :=
  (Std.ExtTreeSet.ofList (t.documents.map (·.origin)) compare).toList

def idsOf (t : Tree) (origin : String) : List UInt64 :=
  (t.documents.filter (·.origin == origin)).map (·.id)

/-- Entries below an entry in depth-first order, as deep as `fuel` goes. -/
def below (t : Tree) : Nat → EntryId → List EntryId
  | 0, _ => []
  | fuel + 1, id => (t.childrenOf id).ids.flatMap fun child => child :: t.below fuel child

def preorder (t : Tree) : List EntryId := t.below t.arena.size root

end Tree

end CategorizedIndex
