import CategorizedIndex.Config
import CategorizedIndex.ScopedId
import Std.Data.ExtTreeSet

/-! # Sets with exceptions

Membership over all ids, kept as one answer for every id and the ids that differ
from it. "All but a few" and "none but a few" both stay small. Expanded categories
and selected entries are such sets; the root is expanded whatever its set holds.
-/
namespace CategorizedIndex

structure ExceptionSet where
  default : Bool
  exceptions : Std.ExtTreeSet ScopedId
  deriving DecidableEq

namespace ExceptionSet

def all (value : Bool) : ExceptionSet := ⟨value, ∅⟩

def contains (s : ExceptionSet) (id : ScopedId) : Bool := s.default != s.exceptions.contains id

def set (s : ExceptionSet) (id : ScopedId) (value : Bool) : ExceptionSet :=
  if value = s.default then { s with exceptions := s.exceptions.erase id }
  else { s with exceptions := s.exceptions.insert id }

def exceptionCount (s : ExceptionSet) : Nat := s.exceptions.size

@[simp] theorem contains_all (value : Bool) (id : ScopedId) : (all value).contains id = value := by
  simp [all, contains]

theorem contains_set (s : ExceptionSet) (a b : ScopedId) (value : Bool) :
    (s.set a value).contains b = if a = b then value else s.contains b := by
  unfold set contains
  by_cases h : a = b
  · subst h
    cases value <;> cases s.default <;> simp
  · have hc : ¬ compare a b = .eq := fun hc => h (Std.LawfulEqOrd.eq_of_compare hc)
    split <;> simp [Std.ExtTreeSet.contains_insert, Std.ExtTreeSet.contains_erase, hc]

end ExceptionSet

structure ExpansionSet where
  set : ExceptionSet
  deriving DecidableEq

namespace ExpansionSet

def start (mode : Expansion) : ExpansionSet := ⟨.all (mode == .expanded)⟩

def isExpanded (s : ExpansionSet) (id : ScopedId) : Bool := id.isRoot || s.set.contains id

def expand (s : ExpansionSet) (id : ScopedId) : ExpansionSet := ⟨s.set.set id true⟩

def collapse (s : ExpansionSet) (id : ScopedId) : ExpansionSet :=
  if id.isRoot then s else ⟨s.set.set id false⟩

def expandAll (_ : ExpansionSet) : ExpansionSet := ⟨.all true⟩

def collapseAll (_ : ExpansionSet) : ExpansionSet := ⟨.all false⟩

def mode (s : ExpansionSet) : Expansion := if s.set.default then .expanded else .collapsed

end ExpansionSet

structure SelectionSet where
  set : ExceptionSet
  deriving DecidableEq

namespace SelectionSet

def none : SelectionSet := ⟨.all false⟩

def isSelected (s : SelectionSet) (id : ScopedId) : Bool := s.set.contains id

def select (s : SelectionSet) (id : ScopedId) : SelectionSet := ⟨s.set.set id true⟩

def deselect (s : SelectionSet) (id : ScopedId) : SelectionSet := ⟨s.set.set id false⟩

def selectAll (_ : SelectionSet) : SelectionSet := ⟨.all true⟩

def deselectAll (_ : SelectionSet) : SelectionSet := ⟨.all false⟩

end SelectionSet

end CategorizedIndex
