import CategorizedIndex.Tree.Basic

/-! # Criteria

A small language of conditions on rows and entries. A row that is not placed yet
has no children and no rank, so every condition on these fails for it.
-/
namespace CategorizedIndex

/-- What is known of an entry by its place. -/
structure Standing where
  children : Nat
  descendants : Nat
  rank : Nat

structure Subject where
  row : Row
  standing : Option Standing

inductive Criterion
  | always (answer : Bool)
  | all (parts : List Criterion)
  | any (parts : List Criterion)
  | not (part : Criterion)
  | idMod (modulus rest : UInt64)
  | idIn (ids : List UInt64)
  | origin (name : String)
  | unidStart (start : String)
  | has (item : String)
  | eq (item : String) (value : ColumnValue)
  | kind (item : String) (kind : ScalarKind)
  | isCategory
  | minChildren (n : Nat)
  | minDescendants (n : Nat)
  | rank (n : Nat)

namespace Criterion

mutual

def holds (s : Subject) : Criterion → Bool
  | always answer => answer
  | all parts => holdAll s parts
  | any parts => holdsAny s parts
  | not part => !holds s part
  | idMod modulus rest => s.row.scopedId.id % modulus == rest
  | idIn ids => ids.contains s.row.scopedId.id
  | origin name => s.row.scopedId.origin == name
  | unidStart start => start.toList.isPrefixOf s.row.unid.toList
  | has item => s.row.values.contains item
  | eq item value => (s.row.values[item]?).any (·.same value)
  | kind item expected =>
    ((s.row.values[item]?).bind (·.scalars.head?)).any (·.kind == expected)
  | isCategory => s.row.scopedId.isCategory
  | minChildren n => s.standing.any fun standing => n ≤ standing.children
  | minDescendants n => s.standing.any fun standing => n ≤ standing.descendants
  | rank n => s.standing.any fun standing => standing.rank == n

def holdAll (s : Subject) : List Criterion → Bool
  | [] => true
  | part :: rest => holds s part && holdAll s rest

def holdsAny (s : Subject) : List Criterion → Bool
  | [] => false
  | part :: rest => holds s part || holdsAny s rest

end

def rowFilter (c : Criterion) : RowFilter := fun row => c.holds ⟨row, none⟩

/-- The criterion for entries of a tree; a category has only the value of its column. -/
def entryFilter (c : Criterion) (e : Entry) : Bool :=
  c.holds
    ⟨⟨e.scopedId, e.unid, e.values⟩,
      some ⟨e.counters.children, e.counters.descendants, e.rank⟩⟩

end Criterion

end CategorizedIndex
