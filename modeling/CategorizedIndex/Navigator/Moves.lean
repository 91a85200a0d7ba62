import CategorizedIndex.Navigator.Selection

/-! # Moves and choices

What a navigator can be told, one thing after the other: moves, of which some may not be
possible, and choices of what is selected with parents.
-/
namespace CategorizedIndex.Navigator

/-- What a navigator can be told to do. Expanding, selecting and filtering are changes of
its state. -/
inductive Move
  | first
  | last
  | step (course : Course)
  | parent
  | child (course : Course)
  | sibling (course : Course)
  | position (position : Position)
  | entry (id : ScopedId)
  | selected (course : Course)
  | skip (count : Int)
  | read (count : Nat)
  | adopt (state : NavigatorState)

def move? (n : Navigator) : Move → Option Navigator
  | .first => n.gotoFirst?
  | .last => n.gotoLast?
  | .step course => n.step? course
  | .parent => n.gotoParent?
  | .child course => n.gotoChild? course
  | .sibling course => n.gotoSibling? course
  | .position position => n.gotoPosition? position
  | .entry id => n.gotoEntry? id
  | .selected course => n.gotoSelected? course
  | .skip count => some (n.skip count).2
  | .read count => some (n.read count).2
  | .adopt state => some { n with state := state }

/-- The navigator after moves in their order; one that is not possible is left out. -/
def run (n : Navigator) (moves : List Move) : Navigator :=
  moves.foldl (fun n move => (n.move? move).getD n) n

/-- What can be chosen with parents. In between a navigator moves, expands and filters. -/
inductive Choice
  | select (id : ScopedId)
  | selectCurrent
  | deselect (id : ScopedId) (document : id.isCategory = false)
  | selectAll
  | deselectAll
  | go (move : Move) (keeps : ∀ state, move ≠ .adopt state)
  | look (expansion : ExpansionSet) (visibility : Option VisibilityFilter)

def choose (n : Navigator) : Choice → Navigator
  | .select id => n.select id true
  | .selectCurrent => (n.selectCurrent? true).getD n
  | .deselect id _ => n.deselect id true
  | .selectAll => n.withSelection (·.selectAll)
  | .deselectAll => n.withSelection (·.deselectAll)
  | .go move _ => (n.move? move).getD n
  | .look expansion visibility => (n.withExpansion fun _ => expansion).withVisibility visibility

end CategorizedIndex.Navigator
