import CategorizedIndex.Proofs.KeyOrder.Casing

/-! # The order of sort keys

The lenient comparison brings letters to the lower case of Unicode. What holds under any
casing holds of it: it is a total order on keys that declare one direction for each sort
position.
-/
namespace CategorizedIndex

open Std

/-- Along an ascending list elements compare as their places do. -/
theorem cmp_eq_compare_of_pairwise {α : Type} {cmp : α → α → Ordering} [OrientedCmp cmp]
    {l : List α} (h : l.Pairwise fun a b => cmp a b = .lt) {i j : Nat} {a b : α}
    (hi : l[i]? = some a) (hj : l[j]? = some b) : cmp a b = compare i j := by
  have hless : ∀ {i j : Nat} {a b}, l[i]? = some a → l[j]? = some b → i < j →
      cmp a b = .lt := by
    intro i j a b hi hj hij
    obtain ⟨hi', rfl⟩ := List.getElem?_eq_some_iff.mp hi
    obtain ⟨hj', rfl⟩ := List.getElem?_eq_some_iff.mp hj
    exact List.pairwise_iff_getElem.mp h i j hi' hj' hij
  rcases Nat.lt_trichotomy i j with hij | rfl | hij
  · rw [hless hi hj hij, Nat.compare_eq_lt.mpr hij]
  · obtain rfl := Option.some.inj (hi.symm.trans hj)
    have hself : cmp a a = .eq := ReflCmp.compare_self
    rw [hself, Nat.compare_eq_eq.mpr rfl]
  · rw [OrientedCmp.gt_of_lt (hless hj hi hij), Nat.compare_eq_gt.mpr hij]

namespace Slot

theorem compareScalars_eq_compareBy : compareScalars = Scalar.compareBy Text.lowerChar := by
  funext a b
  cases a <;> cases b <;> rfl

theorem compareValues_eq_compareValuesBy : compareValues = compareValuesBy Text.lowerChar := by
  funext a b
  cases a <;> cases b
  case some.some a b => exact congrFun (congrFun compareScalars_eq_compareBy a) b
  all_goals rfl

theorem cmp_eq_cmpBy : Slot.cmp = Slot.cmpBy Text.lowerChar := by
  funext a b
  rw [cmp, compareValues_eq_compareValuesBy]
  rfl

instance : LawfulEqCmp compareScalars := by
  rw [compareScalars_eq_compareBy]
  infer_instance

instance : LawfulEqCmp compareValues := by
  rw [compareValues_eq_compareValuesBy]
  infer_instance

end Slot

namespace SortKey

theorem compareSlots_eq_compareSlotsBy (as bs : List Slot) :
    compareSlots as bs = compareSlotsBy Text.lowerChar as bs := by
  induction as generalizing bs with
  | nil => cases bs <;> rfl
  | cons a as ih =>
    cases bs with
    | nil => rfl
    | cons b bs => rw [compareSlots, compareSlotsBy, ih, Slot.cmp_eq_cmpBy]

/-- The comparison of whole lists: a longer list comes after its shorter start. -/
def compareSlotLists (as bs : List Slot) : Ordering :=
  (compareSlots as bs).then (compare as.length bs.length)

theorem compareSlotLists_eq : compareSlotLists = compareSlotListsBy Text.lowerChar := by
  funext as bs
  rw [compareSlotLists, compareSlots_eq_compareSlotsBy, compareSlotListsBy]

theorem compareSlotLists_eq_iff (as bs : List Slot) :
    compareSlotLists as bs = .eq ↔ as.map (·.value) = bs.map (·.value) := by
  rw [compareSlotLists_eq, compareSlotListsBy_eq_iff]

theorem compareSlotLists_swap (as bs : List Slot) :
    compareSlotLists bs as = (compareSlotLists as bs).swap := by
  rw [compareSlotLists_eq, compareSlotListsBy_swap]

theorem cmp_eq (a b : SortKey) :
    a.cmp b = (compareSection a.isCategory b.isCategory).then
      ((Bound.cmp compare a.column b.column).then
        ((compareSlotLists a.slots b.slots).then
          ((Bound.cmp compare a.origin b.origin).then (compare a.id b.id)))) := by
  simp only [cmp, compareSlotLists, Ordering.then_assoc]

/-- The comparison that runs is the one under the lower case of Unicode. -/
theorem cmp_eq_cmpBy : SortKey.cmp = SortKey.cmpBy Text.lowerChar := by
  funext a b
  rw [cmp_eq, compareSlotLists_eq, cmpBy]

theorem cmp_swap (a b : SortKey) : b.cmp a = (a.cmp b).swap := by
  rw [cmp_eq_cmpBy, cmpBy_swap]

instance : OrientedCmp SortKey.cmp where
  eq_swap {a b} := cmp_swap b a

theorem cmp_eq_eq_iff (a b : SortKey) :
    a.cmp b = .eq ↔ a.isCategory = b.isCategory ∧ a.column = b.column ∧
      a.slots.map (·.value) = b.slots.map (·.value) ∧ a.origin = b.origin ∧ a.id = b.id := by
  rw [cmp_eq_cmpBy, cmpBy_eq_eq_iff]

theorem cmp_self (a : SortKey) : a.cmp a = .eq :=
  (cmp_eq_eq_iff a a).mpr ⟨rfl, rfl, rfl, rfl, rfl⟩

theorem cmp_lt_trans {directions : Directions} {a b c : SortKey} (ha : a.Follows directions)
    (hb : b.Follows directions) (hc : c.Follows directions) (hab : a.cmp b = .lt)
    (hbc : b.cmp c = .lt) : a.cmp c = .lt := by
  rw [cmp_eq_cmpBy] at hab hbc ⊢
  exact @TransCmp.lt_trans _ (fun a b : Keys directions => a.1.cmpBy Text.lowerChar b.1) _
    ⟨a, ha⟩ ⟨b, hb⟩ ⟨c, hc⟩ hab hbc

theorem cmp_gt_iff_lt {a b : SortKey} : a.cmp b = .gt ↔ b.cmp a = .lt := by
  rw [cmp_swap a b]
  cases a.cmp b <;> decide

end SortKey

end CategorizedIndex
