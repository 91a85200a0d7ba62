import CategorizedIndex.Navigator.Basic

/-! # Expanding and selecting

Entries are expanded and selected by id. Selecting with parents selects every
category above any placement; deselecting with parents goes up from the deepest
category and stops short of those that still have a selected entry below.
-/
namespace CategorizedIndex

namespace Navigator

def withExpansion (n : Navigator) (f : ExpansionSet → ExpansionSet) : Navigator :=
  { n with state := { n.state with expansion := f n.state.expansion } }

def withSelection (n : Navigator) (f : SelectionSet → SelectionSet) : Navigator :=
  { n with state := { n.state with selection := f n.state.selection } }

def withVisibility (n : Navigator) (visibility : Option VisibilityFilter) : Navigator :=
  { n with state := { n.state with visibility := visibility } }

def expand (n : Navigator) (id : ScopedId) : Navigator := n.withExpansion (·.expand id)

def collapse (n : Navigator) (id : ScopedId) : Navigator := n.withExpansion (·.collapse id)

def idAt? (n : Navigator) (position : Position) : Option ScopedId :=
  ((n.tree.entryAt? position).bind n.tree.get?).map (·.scopedId)

def expandAt? (n : Navigator) (position : Position) : Option Navigator :=
  (n.idAt? position).map n.expand

def collapseAt? (n : Navigator) (position : Position) : Option Navigator :=
  (n.idAt? position).map n.collapse

/-- An entry under its handle, with its level. -/
structure Ancestor where
  handle : EntryId
  level : Nat
  entry : Entry

def ancestorsOf (t : Tree) (placement : EntryId) : List Ancestor :=
  ((t.lineage placement).tail.takeWhile fun (_, e) => !e.isRoot).map fun (id, e) =>
    ⟨id, (t.level? id).getD 0, e⟩

def addAncestor (known : List Ancestor) (a : Ancestor) : List Ancestor :=
  if known.any (·.handle == a.handle) then known else known ++ [a]

/-- Categories above any placement of an id, each once, the deepest first. -/
def ancestors (t : Tree) (id : ScopedId) : List Ancestor :=
  (((t.placementsOf id).flatMap (ancestorsOf t)).foldl addAncestor []).mergeSort fun a b =>
    b.level ≤ a.level

def hasSelectedBelow (n : Navigator) (id : EntryId) : Bool :=
  (n.tree.below n.tree.arena.size id).any fun child =>
    (n.tree.get? child).any fun e => n.state.selection.isSelected e.scopedId

def selectEntry (n : Navigator) (id : ScopedId) : Navigator := n.withSelection (·.select id)

def select (n : Navigator) (id : ScopedId) (withParents : Bool) : Navigator :=
  if withParents then
    (ancestors n.tree id).foldl (fun n a => n.selectEntry a.entry.scopedId) (n.selectEntry id)
  else n.selectEntry id

def deselectEntry (n : Navigator) (id : ScopedId) : Navigator := n.withSelection (·.deselect id)

def deselectBare (n : Navigator) (a : Ancestor) : Navigator :=
  if n.hasSelectedBelow a.handle then n else n.deselectEntry a.entry.scopedId

def deselect (n : Navigator) (id : ScopedId) (withParents : Bool) : Navigator :=
  if withParents then (ancestors n.tree id).foldl deselectBare (n.deselectEntry id)
  else n.deselectEntry id

def selectCurrent? (n : Navigator) (withParents : Bool) : Option Navigator :=
  n.entryHere?.map fun e => n.select e.scopedId withParents

def selectedPositions (n : Navigator) : List Position :=
  (n.tree.preorder.filter fun id =>
    (n.tree.get? id).any fun e => n.state.selection.isSelected e.scopedId).map n.tree.position

end Navigator

end CategorizedIndex
