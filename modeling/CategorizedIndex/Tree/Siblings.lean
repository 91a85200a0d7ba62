import CategorizedIndex.SortKey
import CategorizedIndex.Violation

/-! # Siblings

The children of one entry: handles filed under sort keys, in the order of the
lenient comparison. Two keys that compare equal name one child.
-/
namespace CategorizedIndex

structure Siblings where
  toList : List (SortKey × EntryId)
  deriving DecidableEq

namespace Siblings

def empty : Siblings := ⟨[]⟩

def insertInto (key : SortKey) (id : EntryId) :
    List (SortKey × EntryId) → List (SortKey × EntryId)
  | [] => [(key, id)]
  | (k, i) :: rest =>
    match key.cmp k with
    | .lt => (key, id) :: (k, i) :: rest
    | .eq => (k, id) :: rest
    | .gt => (k, i) :: insertInto key id rest

/-- Files a handle; an equal key keeps its place and takes the new handle. -/
def insert (s : Siblings) (key : SortKey) (id : EntryId) : Siblings :=
  ⟨insertInto key id s.toList⟩

def erase (s : Siblings) (key : SortKey) : Siblings :=
  ⟨s.toList.eraseP fun child => key.cmp child.1 == .eq⟩

def ids (s : Siblings) : List EntryId := s.toList.map (·.2)

def size (s : Siblings) : Nat := s.toList.length

def isEmpty (s : Siblings) : Bool := s.toList.isEmpty

def atRank? (s : Siblings) (rank : Nat) : Option (SortKey × EntryId) :=
  if rank = 0 then none else s.toList[rank - 1]?

def within (s : Siblings) (range : SortKey.Range) : List (SortKey × EntryId) :=
  s.toList.filter fun child => range.contains child.1

def firstWithin? (s : Siblings) (range : SortKey.Range) : Option EntryId :=
  (s.toList.find? fun child => range.contains child.1).map (·.2)

def after (s : Siblings) (key : SortKey) : List (SortKey × EntryId) :=
  s.toList.filter fun child => key.cmp child.1 == .lt

def before (s : Siblings) (key : SortKey) : List (SortKey × EntryId) :=
  s.toList.filter fun child => child.1.cmp key == .lt

end Siblings

end CategorizedIndex
