import CategorizedIndex.Tree.Siblings

/-! # Level cursors

A place among siblings, and what lies ahead of it in the course it last moved in.
Going on in that course uses what is ahead; turning round, or a move that failed,
looks again from the current sibling, so that a new filter is honoured.
-/
namespace CategorizedIndex

inductive Course
  | forward
  | backward
  deriving DecidableEq

structure LevelCursor where
  parent : EntryId
  siblings : Siblings
  current : Option (SortKey × EntryId)
  ahead : Option (Course × List (SortKey × EntryId))
  deriving DecidableEq

namespace LevelCursor

/-- Before the first sibling, or behind the last. -/
def outside (parent : EntryId) (siblings : Siblings) : LevelCursor :=
  ⟨parent, siblings, none, none⟩

def resting (parent : EntryId) (siblings : Siblings) (child : SortKey × EntryId) : LevelCursor :=
  ⟨parent, siblings, some child, none⟩

def currentId? (c : LevelCursor) : Option EntryId := c.current.map (·.2)

/-- Everything beyond the current sibling, nearest first. -/
def beyond (c : LevelCursor) : Course → List (SortKey × EntryId)
  | .forward =>
    match c.current with
    | none => c.siblings.toList
    | some (key, _) => c.siblings.after key
  | .backward =>
    match c.current with
    | none => c.siblings.toList.reverse
    | some (key, _) => (c.siblings.before key).reverse

def remaining (c : LevelCursor) (course : Course) : List (SortKey × EntryId) :=
  match c.ahead with
  | some (moving, rest) => if moving = course then rest else c.beyond course
  | none => c.beyond course

/-- Moves to the nearest sibling in a course that the filter accepts. Without one
the current sibling stays. -/
def advance (c : LevelCursor) (course : Course) (accept : EntryId → Bool) : Bool × LevelCursor :=
  match (c.remaining course).dropWhile fun child => !accept child.2 with
  | child :: rest => (true, { c with current := some child, ahead := some (course, rest) })
  | [] => (false, { c with ahead := none })

theorem accepted_of_advance {c : LevelCursor} {course : Course} {accept : EntryId → Bool}
    (h : (c.advance course accept).1 = true) :
    ∃ child, (c.advance course accept).2.current = some child ∧ accept child.2 = true := by
  have hd := List.head?_dropWhile_not (fun child => !accept child.2) (c.remaining course)
  unfold advance at h ⊢
  split
  · next child rest heq =>
    rw [heq] at hd
    exact ⟨child, rfl, by simpa using hd⟩
  · next heq => simp [heq] at h

/-! ## Attempts -/

structure Attempt where
  course : Course
  accept : EntryId → Bool

def attempt (c : LevelCursor) (a : Attempt) : Bool × LevelCursor := c.advance a.course a.accept

def tried (c : LevelCursor) (attempts : List Attempt) : LevelCursor :=
  attempts.foldl (fun c a => (c.attempt a).2) c

/-- Whether each attempt was possible, and the current sibling after it. -/
def answers (c : LevelCursor) : List Attempt → List (Bool × Option (SortKey × EntryId))
  | [] => []
  | a :: later => ((c.attempt a).1, (c.attempt a).2.current) :: (c.attempt a).2.answers later

/-- The same place among the same siblings with nothing kept. -/
def anew (c : LevelCursor) : LevelCursor := { c with ahead := none }

/-- The answers of a cursor that looks everything up again before each attempt. -/
def answersAnew (c : LevelCursor) : List Attempt → List (Bool × Option (SortKey × EntryId))
  | [] => []
  | a :: later =>
    ((c.anew.attempt a).1, (c.anew.attempt a).2.current) :: (c.anew.attempt a).2.answersAnew later

end LevelCursor

end CategorizedIndex
