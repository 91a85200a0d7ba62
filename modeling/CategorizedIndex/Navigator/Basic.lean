import CategorizedIndex.Index
import CategorizedIndex.Navigator.Cursor
import CategorizedIndex.Navigator.ExceptionSet

/-! # Navigators

A navigator walks a tree that does not change meanwhile. It keeps one cursor for
every level from the current entry up to the top, the deepest first, and the sets
of expanded and selected entries. Walking goes through the entries that the
visibility filter accepts, together with those above them, and enters expanded
categories only; a position can be reached whatever is collapsed.

A move that is not possible has no result, so the navigator stays as it was.
-/
namespace CategorizedIndex

abbrev VisibilityFilter := Entry → Bool

/-- What outlives a navigator: nothing in it refers to positions. -/
structure NavigatorState where
  expansion : ExpansionSet
  selection : SelectionSet
  visibility : Option VisibilityFilter

namespace NavigatorState

def start (mode : Expansion) : NavigatorState := ⟨.start mode, .none, none⟩

end NavigatorState

structure Navigator where
  tree : Tree
  /-- The cursor of the current entry first, that of the top level last. -/
  stack : List LevelCursor
  state : NavigatorState

namespace Navigator

def start (tree : Tree) (state : NavigatorState) : Navigator := ⟨tree, [], state⟩

def currentId? (n : Navigator) : Option EntryId := n.stack.head?.bind (·.currentId?)

def entryHere? (n : Navigator) : Option Entry := n.currentId?.bind n.tree.get?

def current? (n : Navigator) : Option Snapshot := n.currentId?.bind n.tree.snapshot?

/-- Ranks of the current entry and those above it, top level first. -/
def currentPosition? (n : Navigator) : Option Position :=
  if n.stack = [] then none
  else (n.stack.reverse.mapM fun level =>
    (level.currentId?.bind n.tree.get?).map (·.rank))

def isVisible (n : Navigator) (id : EntryId) : Bool :=
  match n.tree.get? id, n.state.visibility with
  | none, _ => false
  | some _, none => true
  | some e, some visible => visible e

/-- Whether walking enters an entry. -/
def isOpen (n : Navigator) (id : EntryId) : Bool :=
  (n.tree.get? id).any fun e => e.isCategory && n.state.expansion.isExpanded e.scopedId

/-- A stack with the first or last visible child of an entry on top. -/
def enter? (n : Navigator) (stack : List LevelCursor) (parent : EntryId) (course : Course) :
    Option (List LevelCursor) :=
  match n.tree.get? parent with
  | none => none
  | some e =>
    match (LevelCursor.outside parent e.children).advance course n.isVisible with
    | (true, level) => some (level :: stack)
    | (false, _) => none

/-- Enters open entries at their last visible child as far as possible. -/
def descendLast (n : Navigator) : Nat → List LevelCursor → List LevelCursor
  | 0, stack => stack
  | fuel + 1, stack =>
    match stack.head?.bind (·.currentId?) with
    | none => stack
    | some id =>
      if n.isOpen id then
        match n.enter? stack id .backward with
        | some deeper => n.descendLast fuel deeper
        | none => stack
      else stack

/-- No path is deeper than the arena is large. -/
def toDeepestLast (n : Navigator) (stack : List LevelCursor) : List LevelCursor :=
  n.descendLast n.tree.arena.size stack

/-- Moves on from the deepest level that has a further visible sibling. -/
def climbForward? (n : Navigator) : List LevelCursor → Option (List LevelCursor)
  | [] => none
  | level :: above =>
    match level.advance .forward n.isVisible with
    | (true, moved) => some (moved :: above)
    | (false, _) => n.climbForward? above

def withStack (n : Navigator) (stack : List LevelCursor) : Navigator := { n with stack := stack }

def gotoFirst? (n : Navigator) : Option Navigator :=
  (n.enter? [] Tree.root .forward).map n.withStack

def gotoLast? (n : Navigator) : Option Navigator :=
  (n.enter? [] Tree.root .backward).map fun stack => n.withStack (n.toDeepestLast stack)

def gotoNext? (n : Navigator) : Option Navigator :=
  match n.currentId? with
  | none => n.gotoFirst?
  | some id =>
    match if n.isOpen id then n.enter? n.stack id .forward else none with
    | some deeper => some (n.withStack deeper)
    | none => (n.climbForward? n.stack).map n.withStack

def gotoPrev? (n : Navigator) : Option Navigator :=
  match n.currentId?, n.stack with
  | none, _ => n.gotoLast?
  | some _, [] => none
  | some _, level :: above =>
    match level.advance .backward n.isVisible with
    | (true, moved) => some (n.withStack (n.toDeepestLast (moved :: above)))
    | (false, _) => if above = [] then none else some (n.withStack above)

def step? (n : Navigator) : Course → Option Navigator
  | .forward => n.gotoNext?
  | .backward => n.gotoPrev?

def gotoParent? (n : Navigator) : Option Navigator :=
  match n.stack with
  | _ :: above => if above = [] then none else some (n.withStack above)
  | [] => none

/-- The first or last visible child, also of a collapsed entry. -/
def gotoChild? (n : Navigator) (course : Course) : Option Navigator :=
  n.currentId?.bind fun id => (n.enter? n.stack id course).map n.withStack

def gotoSibling? (n : Navigator) (course : Course) : Option Navigator :=
  match n.stack with
  | [] => none
  | level :: above =>
    match level.advance course n.isVisible with
    | (true, moved) => some (n.withStack (moved :: above))
    | (false, _) => none

def resolveFrom? (n : Navigator) (parent : EntryId) (stack : List LevelCursor) :
    Position → Option (List LevelCursor)
  | [] => some stack
  | rank :: rest =>
    match n.tree.get? parent with
    | none => none
    | some e =>
      match e.children.atRank? rank with
      | none => none
      | some child =>
        if n.isVisible child.2 then
          n.resolveFrom? child.2 (.resting parent e.children child :: stack) rest
        else none

/-- The stack that stands on a position, if everything on the way is visible. -/
def resolve? (n : Navigator) (position : Position) : Option (List LevelCursor) :=
  if position = [] then none else n.resolveFrom? Tree.root [] position

def gotoPosition? (n : Navigator) (position : Position) : Option Navigator :=
  (n.resolve? position).map n.withStack

def lookAt? (n : Navigator) (position : Position) : Option Snapshot :=
  (n.gotoPosition? position).bind (·.current?)

/-- The first visible placement of an id in the order of the tree. -/
def gotoEntry? (n : Navigator) (id : ScopedId) : Option Navigator :=
  let positions := ((n.tree.placementsOf id).map n.tree.position).filter (· ≠ [])
  (positions.mergeSort fun a b => (Position.cmp a b).isLE).findSome? n.gotoPosition?

def isCurrentSelected (n : Navigator) : Bool :=
  n.entryHere?.any fun e => n.state.selection.isSelected e.scopedId

/-- Steps until a selected entry is reached. Every step goes on in the order of the
tree, so there are at most as many as there are entries. -/
def seekSelected? (n : Navigator) (course : Course) : Nat → Option Navigator
  | 0 => none
  | fuel + 1 =>
    match n.step? course with
    | none => none
    | some moved => if moved.isCurrentSelected then some moved else moved.seekSelected? course fuel

def gotoSelected? (n : Navigator) (course : Course) : Option Navigator :=
  n.seekSelected? course (n.tree.arena.size + 1)

/-- Steps at most `count` times; returns how many steps were possible. -/
def stepMany (n : Navigator) (course : Course) : Nat → Nat × Navigator
  | 0 => (0, n)
  | count + 1 =>
    match n.step? course with
    | none => (0, n)
    | some moved =>
      let (steps, last) := moved.stepMany course count
      (steps + 1, last)

/-- Steps forward, or backward for a negative count. -/
def skip (n : Navigator) (count : Int) : Nat × Navigator :=
  n.stepMany (if 0 ≤ count then .forward else .backward) count.natAbs

/-- At most `count` handles beginning with the current one; ends on the last. -/
def readFrom (n : Navigator) (course : Course) : Nat → List EntryId × Navigator
  | 0 => ([], n)
  | count + 1 =>
    let here := n.currentId?.toList
    if count = 0 then (here, n)
    else match n.step? course with
      | none => (here, n)
      | some moved =>
        let (rest, last) := moved.readFrom course count
        (here ++ rest, last)

/-- Reads from the current entry, or from the first if there is none. -/
def readIds (n : Navigator) (count : Nat) : List EntryId × Navigator :=
  if count = 0 then ([], n)
  else if n.currentId?.isSome then n.readFrom .forward count
  else match n.gotoFirst? with
    | none => ([], n)
    | some first => first.readFrom .forward count

def read (n : Navigator) (count : Nat) : List Snapshot × Navigator :=
  let (ids, last) := n.readIds count
  (ids.filterMap n.tree.snapshot?, last)

/-- Walks from one end to the other and stays on the last entry. -/
def walk (n : Navigator) (course : Course) : List EntryId × Navigator :=
  match match course with
    | .forward => n.gotoFirst?
    | .backward => n.gotoLast? with
  | none => ([], n)
  | some first => first.readFrom course n.tree.arena.size

end Navigator

end CategorizedIndex
