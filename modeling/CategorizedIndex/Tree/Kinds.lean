import CategorizedIndex.Tree.Basic

/-! # Kinds among siblings

Where kinds must not mix, the values of one sort position have one kind in every
set of siblings: the categories of one column under an entry, and the documents
under it at each of their sort slots. Before a batch is committed it is replayed
against the tree without changing it: which placements go, which categories would
come and which would be pruned. A set of siblings that would hold two kinds turns
the whole batch down.

The sets of the tree have one kind each, so one value that stays stands for all.
-/
namespace CategorizedIndex

namespace Replay

/-- The entry above a set of siblings: one of the tree, or a category that the
batch would create. -/
inductive Parent
  | live (id : EntryId)
  | pending (index : Nat)
  deriving DecidableEq

/-- A sort position among siblings. -/
inductive Place
  | category (column : Nat)
  | document (position : Nat)
  deriving DecidableEq

structure PendingCategory where
  parent : Parent
  column : Nat
  value : Option Scalar
  deriving DecidableEq

/-- The first value of each kind that the batch adds to a set of siblings. -/
structure AddedValues where
  parent : Parent
  place : Place
  values : List Scalar
  deriving DecidableEq

end Replay

open Replay in
structure Replay where
  detached : Std.ExtTreeSet EntryId
  /-- By how much the children of an entry grow. -/
  growth : Std.ExtTreeMap EntryId Int
  pending : List PendingCategory
  /-- In the order in which the batch first touches the sets. -/
  added : List AddedValues

namespace Replay

def start : Replay := ⟨∅, ∅, [], []⟩

def grow (r : Replay) (id : EntryId) (n : Int) : Replay :=
  { r with growth := r.growth.insert id (r.growth.getD id 0 + n) }

def detachOne (t : Tree) (r : Replay) (id : EntryId) : Replay :=
  if r.detached.contains id then r
  else
    let r := { r with detached := r.detached.insert id }
    match (t.get? id).bind (·.parent) with
    | some parent => r.grow parent (-1)
    | none => r

def withdraw (t : Tree) (r : Replay) (id : ScopedId) : Replay :=
  (t.placementsOf id).foldl (detachOne t) r

def addChild (r : Replay) : Parent → Replay
  | .live id => r.grow id 1
  | .pending _ => r

def noteValue (value : Scalar) (a : AddedValues) : AddedValues :=
  if a.values.any (·.kind == value.kind) then a else { a with values := a.values ++ [value] }

def noteIn (parent : Parent) (place : Place) (value : Scalar) :
    List AddedValues → List AddedValues
  | [] => [⟨parent, place, [value]⟩]
  | a :: rest =>
    if a.parent = parent && a.place = place then noteValue value a :: rest
    else a :: noteIn parent place value rest

def note (r : Replay) (parent : Parent) (place : Place) (value : Scalar) : Replay :=
  { r with added := noteIn parent place value r.added }

/-- Equality in the sort order, null equal to null. -/
def equalValue : Option Scalar → Option Scalar → Bool
  | none, none => true
  | some a, some b => a.cmp? b == some .eq
  | _, _ => false

def findLive? (t : Tree) (parent : Parent) (step : CategoryStep) : Option EntryId :=
  match parent with
  | .live id =>
    (t.childrenOf id).firstWithin?
      (SortKey.categoryBounds step.column step.value step.descending)
  | .pending _ => none

def findPending? (r : Replay) (parent : Parent) (step : CategoryStep) : Option Nat :=
  r.pending.findIdx? fun c =>
    c.parent = parent && c.column = step.column && equalValue c.value step.value

def findOrCreate (t : Tree) (parent : Parent) (step : CategoryStep) (r : Replay) :
    Parent × Replay :=
  match findLive? t parent step with
  | some id => (.live id, r)
  | none =>
    match r.findPending? parent step with
    | some index => (.pending index, r)
    | none =>
      let category := PendingCategory.mk parent step.column step.value
      let created := { r with pending := r.pending ++ [category] }.addChild parent
      (.pending r.pending.length,
        match step.value with
        | some value => created.note parent (.category step.column) value
        | none => created)

def resolve (t : Tree) (parent : Parent) : CategoryPath → Replay → Parent × Replay
  | [], r => (parent, r)
  | step :: rest, r =>
    let (parent, r) := r.findOrCreate t parent step
    resolve t parent rest r

def resolveAll (t : Tree) (known : List Parent) :
    List CategoryPath → Replay → List Parent × Replay
  | [], r => (known, r)
  | path :: rest, r =>
    let (parent, r) := resolve t (.live Tree.root) path r
    resolveAll t (if known.contains parent then known else known ++ [parent]) rest r

def noteSlots (parent : Parent) (slots : List Slot) (r : Replay) : Replay :=
  slots.zipIdx.foldl
    (fun r (slot, position) =>
      match slot.scalar? with
      | some value => r.note parent (.document position) value
      | none => r)
    r

def place (t : Tree) (r : Replay) (row : PreparedRow) : Replay :=
  let r := r.withdraw t row.scopedId
  match row.placing with
  | none => r
  | some placing =>
    let (parents, r) := resolveAll t [] placing.paths r
    parents.foldl (fun r parent => (r.addChild parent).noteSlots parent placing.slots) r

def run (t : Tree) (batch : Batch) : Replay :=
  batch.rows.foldl (place t) (batch.removals.foldl (withdraw t) start)

/-- Categories left without children, found from candidates taken in any order;
`fuel` bounds the count of steps. -/
def prunedFrom (t : Tree) : Nat → List EntryId → Std.ExtTreeMap EntryId Int →
    Std.ExtTreeSet EntryId → Std.ExtTreeSet EntryId
  | 0, _, _, pruned | _, [], _, pruned => pruned
  | fuel + 1, id :: rest, growth, pruned =>
    match t.get? id with
    | none => prunedFrom t fuel rest growth pruned
    | some e =>
      if e.isRoot || !e.isCategory || pruned.contains id ||
          0 < (e.counters.children : Int) + growth.getD id 0 then
        prunedFrom t fuel rest growth pruned
      else match e.parent with
        | none => prunedFrom t fuel rest growth (pruned.insert id)
        | some parent =>
          prunedFrom t fuel (parent :: rest) (growth.insert parent (growth.getD parent 0 - 1))
            (pruned.insert id)

def candidates (r : Replay) : List EntryId :=
  (r.growth.toList.filter fun (_, n) => n < 0).map (·.1)

/-- Every step takes one candidate away, and only a newly pruned entry adds one. -/
def pruned (t : Tree) (r : Replay) : Std.ExtTreeSet EntryId :=
  prunedFrom t (r.candidates.length + t.arena.size) r.candidates r.growth ∅

def valueAt (place : Place) (key : SortKey) : Option Scalar :=
  match place with
  | .category column =>
    if key.column = .value column then key.slots.head?.bind (·.scalar?) else none
  | .document position => key.slots[position]?.bind (·.scalar?)

def sectionOf : Place → SortKey.Range
  | .category _ => SortKey.categories
  | .document _ => SortKey.documents

/-- The first value among the children that the batch keeps. -/
def survivor? (t : Tree) (r : Replay) (pruned : Std.ExtTreeSet EntryId) (id : EntryId)
    (place : Place) : Option Scalar :=
  (((t.childrenOf id).within (sectionOf place)).filter fun child =>
    !r.detached.contains child.2 && !pruned.contains child.2).findSome? fun child =>
      valueAt place child.1

/-- Two values of different kinds: the newcomer and the one it meets. -/
def conflict? (t : Tree) (r : Replay) (pruned : Std.ExtTreeSet EntryId) (a : AddedValues) :
    Option (Scalar × Scalar) :=
  let live := match a.parent with
    | .live id => r.survivor? t pruned id a.place
    | .pending _ => none
  match live, a.values with
  | some known, values => (values.find? (·.kind != known.kind)).map (·, known)
  | none, first :: second :: _ => some (second, first)
  | none, _ => none

def itemOf (config : Config) : Place → String
  | .category column => ((config.columns[column]?).map (·.item)).getD "?"
  | .document position => ((config.documentSortColumns[position]?).map (·.item)).getD "?"

def firstConflict? (config : Config) (t : Tree) (r : Replay) : Option Error :=
  let pruned := r.pruned t
  r.added.findSome? fun a =>
    (r.conflict? t pruned a).map fun (value, known) =>
      .siblingKinds value known (itemOf config a.place)

end Replay

/-- Refuses a batch that would leave two kinds of values among siblings. -/
def Tree.checkKinds (t : Tree) (config : Config) (batch : Batch) : Except Error Unit :=
  match (Replay.run t batch).firstConflict? config t with
  | some e => .error e
  | none => .ok ()

end CategorizedIndex
