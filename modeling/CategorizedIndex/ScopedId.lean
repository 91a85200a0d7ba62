import Std.Data.ExtTreeMap

/-! # Scoped ids

Every entry is named by an origin and a 64-bit id. The top bit of the id is
reserved for categories, which the index creates itself under an origin of its
own; category 0 is the root. A document may have many placements, all under one
scoped id.
-/
namespace CategorizedIndex

structure ScopedId where
  origin : String
  id : UInt64
  deriving DecidableEq

namespace ScopedId

def categoryFlag : UInt64 := 0x8000000000000000

def categoryOrigin : String := "$category"

def category (sequence : UInt64) : ScopedId := ⟨categoryOrigin, categoryFlag ||| sequence⟩

def root : ScopedId := category 0

def isCategory (s : ScopedId) : Bool := s.id &&& categoryFlag != 0

def isDocument (s : ScopedId) : Bool := !s.isCategory

def isRoot (s : ScopedId) : Bool := s.id == categoryFlag && s.origin == categoryOrigin

def number (s : ScopedId) : UInt64 := s.id &&& ~~~categoryFlag

/-- Categories show a `c` before their number. -/
def toText (s : ScopedId) : String :=
  if s.isCategory then s.origin ++ "#c" ++ toString s.number.toNat
  else s.origin ++ "#" ++ toString s.id.toNat

instance : Ord ScopedId := ⟨compareLex (compareOn origin) (compareOn id)⟩

instance : Std.TransOrd ScopedId :=
  inferInstanceAs (Std.TransCmp (compareLex (compareOn origin) (compareOn id)))

theorem compare_eq (a b : ScopedId) :
    compare a b = (compare a.origin b.origin).then (compare a.id b.id) := rfl

instance : Std.LawfulEqOrd ScopedId where
  eq_of_compare {a b} h := by
    rw [compare_eq, Ordering.then_eq_eq] at h
    obtain ⟨ho, hi⟩ := h
    cases a; cases b
    simp only [Std.LawfulEqOrd.compare_eq_iff_eq] at ho hi
    simp_all

theorem isCategory_category (sequence : UInt64) : (category sequence).isCategory = true := by
  have h : (categoryFlag ||| sequence) &&& categoryFlag = categoryFlag := by
    apply UInt64.eq_of_toBitVec_eq
    ext i hi
    simp only [UInt64.toBitVec_and, UInt64.toBitVec_or, BitVec.getElem_and, BitVec.getElem_or]
    cases categoryFlag.toBitVec[i] <;> simp
  simp only [isCategory, category, h]
  decide

end ScopedId

end CategorizedIndex
