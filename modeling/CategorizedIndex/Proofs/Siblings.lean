import CategorizedIndex.Proofs.KeyOrder
import CategorizedIndex.Tree.Siblings
import Mathlib.Data.List.Pairwise

/-! # Sorted siblings

Siblings whose keys strictly increase. Filing a new key and striking a stored one
change the members by that one child and keep the order; the range of a category value
finds the child that holds it and nothing else.
-/
namespace CategorizedIndex

open Std

namespace SortKey

/-- No sentinel stands in a stored key. -/
structure Stored (k : SortKey) : Prop where
  slots : ∀ s ∈ k.slots, ∃ v, s.value = .value v
  origin : ∃ o, k.origin = .value o

theorem stored_category (column : Nat) (value : Option Scalar) (descending : Bool)
    (id : ScopedId) : (category column value descending id).Stored where
  slots s hs := by
    rw [category, List.mem_singleton] at hs
    exact ⟨_, congrArg Slot.value hs⟩
  origin := ⟨id.origin, rfl⟩

/-- The comparison of everything that stands before origin and id. -/
def compareHeads (a b : SortKey) : Ordering :=
  (compareSection a.isCategory b.isCategory).then
    ((Bound.cmp compare a.column b.column).then (compareSlotLists a.slots b.slots))

theorem cmp_eq_compareHeads (a b : SortKey) :
    a.cmp b = (compareHeads a b).then
      ((Bound.cmp compare a.origin b.origin).then (compare a.id b.id)) := by
  simp only [cmp_eq, compareHeads, Ordering.then_assoc]

theorem compareHeads_eq_eq_iff (a b : SortKey) :
    compareHeads a b = .eq ↔ a.isCategory = b.isCategory ∧ a.column = b.column ∧
      a.slots.map (·.value) = b.slots.map (·.value) := by
  rw [compareHeads, Ordering.then_eq_eq, Ordering.then_eq_eq, compareSlotLists_eq_iff]
  simp only [LawfulEqCmp.compare_eq_iff_eq]

theorem compareHeads_swap (a b : SortKey) : compareHeads b a = (compareHeads a b).swap := by
  have hc : Bound.cmp compare b.column a.column = (Bound.cmp compare a.column b.column).swap :=
    OrientedCmp.eq_swap
  simp only [compareHeads, Ordering.swap_then, compareSection_swap a.isCategory b.isCategory, hc,
    compareSlotLists_swap a.slots b.slots]

/-- The range of a category value holds the categories of the column with that value. -/
theorem contains_categoryBounds {k : SortKey} (hk : k.Stored) (column : Nat)
    (value : Option Scalar) (descending : Bool) :
    (categoryBounds column value descending).contains k = true ↔
      k.isCategory = true ∧ k.column = .value column ∧
        k.slots.map (·.value) = [(Slot.ofScalar value descending).value] := by
  obtain ⟨o, ho⟩ := hk.origin
  let r := categoryBounds column value descending
  have hlow : r.low.cmp k = (compareHeads r.low k).then .lt := by
    rw [cmp_eq_compareHeads, ho]
    rfl
  have hhigh : k.cmp r.high = (compareHeads r.low k).swap.then .lt := by
    rw [cmp_eq_compareHeads, ← compareHeads_swap, ho]
    rfl
  have hheads := compareHeads_eq_eq_iff r.low k
  have hiff : r.contains k = true ↔ compareHeads r.low k = .eq := by
    rw [Range.contains, hlow, hhigh]
    cases compareHeads r.low k <;> decide
  rw [hiff, hheads]
  constructor
  · rintro ⟨hs, hc, hv⟩
    exact ⟨hs.symm, hc.symm, hv.symm⟩
  · rintro ⟨hs, hc, hv⟩
    exact ⟨hs.symm, hc.symm, hv.symm⟩

theorem contains_categories {k : SortKey} (hk : k.Stored) {column : Nat}
    (hc : k.column = .value column) (hs : k.slots ≠ []) :
    categories.contains k = k.isCategory := by
  obtain ⟨s, rest, hsl⟩ := List.exists_cons_of_ne_nil hs
  obtain ⟨v, hv⟩ := hk.slots s (hsl ▸ List.mem_cons_self)
  cases hcat : k.isCategory with
  | false =>
    have : k.cmp categories.high = .gt := by
      rw [cmp_eq, hcat]
      rfl
    rw [Range.contains, this, Ordering.isLE_gt, Bool.and_false]
  | true =>
    have hhigh : k.cmp categories.high = .lt := by
      rw [cmp_eq, hcat, hc]
      rfl
    have hlist : compareSlotLists categories.low.slots k.slots = .lt := by
      rw [hsl]
      simp [categories, openRange, compareSlotLists, compareSlots, Slot.cmp, Slot.lowest, hv,
        Bound.cmp]
    have hlow : (categories.low.cmp k).isLE = true := by
      rw [cmp_eq, hcat, hc, hlist]
      simp only [Ordering.lt_then]
      cases column <;> rfl
    rw [Range.contains, hhigh, hlow, Ordering.isLE_lt, Bool.and_self]

theorem contains_documents {k : SortKey} (hk : k.Stored) (hs : k.slots ≠ [])
    (hc : k.isCategory = false → k.column = .value 0) :
    documents.contains k = !k.isCategory := by
  obtain ⟨s, rest, hsl⟩ := List.exists_cons_of_ne_nil hs
  obtain ⟨v, hv⟩ := hk.slots s (hsl ▸ List.mem_cons_self)
  cases hcat : k.isCategory with
  | true =>
    have : documents.low.cmp k = .gt := by
      rw [cmp_eq, hcat]
      rfl
    rw [Range.contains, this, Ordering.isLE_gt, Bool.false_and, Bool.not_true]
  | false =>
    have hhigh : k.cmp documents.high = .lt := by
      rw [cmp_eq, hcat, hc hcat]
      rfl
    have hlist : compareSlotLists documents.low.slots k.slots = .lt := by
      rw [hsl]
      simp [documents, openRange, compareSlotLists, compareSlots, Slot.cmp, Slot.lowest, hv,
        Bound.cmp]
    have hlow : documents.low.cmp k = .lt := by
      rw [cmp_eq, hcat, hc hcat, hlist]
      rfl
    rw [Range.contains, hhigh, hlow, Ordering.isLE_lt, Bool.and_self, Bool.not_false]

end SortKey

namespace Siblings

/-- Keys strictly increase along the siblings. -/
def Sorted (s : Siblings) : Prop := s.toList.Pairwise fun a b => a.1.cmp b.1 = .lt

/-- All keys declare the same directions. -/
def Follow (directions : SortKey.Directions) (s : Siblings) : Prop :=
  ∀ child ∈ s.toList, child.1.Follows directions

theorem sorted_empty : empty.Sorted := List.Pairwise.nil

theorem perm_insertInto {key : SortKey} {id : EntryId} {l : List (SortKey × EntryId)}
    (hnew : ∀ child ∈ l, key.cmp child.1 ≠ .eq) : (insertInto key id l).Perm ((key, id) :: l) := by
  induction l with
  | nil => exact .refl _
  | cons child rest ih =>
    obtain ⟨hchild, hrest⟩ := List.forall_mem_cons.mp hnew
    unfold insertInto
    split
    · exact .refl _
    · next h => exact absurd h hchild
    · exact ((ih hrest).cons _).trans (.swap _ _ _)

theorem mem_insertInto {key : SortKey} {id : EntryId} {l : List (SortKey × EntryId)}
    (hnew : ∀ child ∈ l, key.cmp child.1 ≠ .eq) (c : SortKey × EntryId) :
    c ∈ insertInto key id l ↔ c = (key, id) ∨ c ∈ l := by
  rw [(perm_insertInto hnew).mem_iff, List.mem_cons]

theorem mem_insert {s : Siblings} {key : SortKey} {id : EntryId}
    (hnew : ∀ child ∈ s.toList, key.cmp child.1 ≠ .eq) (c : SortKey × EntryId) :
    c ∈ (s.insert key id).toList ↔ c = (key, id) ∨ c ∈ s.toList :=
  mem_insertInto hnew c

theorem pairwise_insertInto {directions : SortKey.Directions} {key : SortKey} {id : EntryId}
    {l : List (SortKey × EntryId)} (hkey : key.Follows directions)
    (hl : ∀ child ∈ l, child.1.Follows directions)
    (hnew : ∀ child ∈ l, key.cmp child.1 ≠ .eq)
    (hs : l.Pairwise fun a b => a.1.cmp b.1 = .lt) :
    (insertInto key id l).Pairwise fun a b => a.1.cmp b.1 = .lt := by
  induction l with
  | nil => exact List.pairwise_singleton _ _
  | cons child rest ih =>
    obtain ⟨hhead, hrest⟩ := List.pairwise_cons.mp hs
    have hl' : ∀ c ∈ rest, c.1.Follows directions := fun c hc => hl c (List.mem_cons_of_mem _ hc)
    have hnew' : ∀ c ∈ rest, key.cmp c.1 ≠ .eq := fun c hc => hnew c (List.mem_cons_of_mem _ hc)
    have hchild := hl child List.mem_cons_self
    unfold insertInto
    split
    · next h =>
      refine List.pairwise_cons.mpr ⟨fun c hc => ?_, hs⟩
      rcases List.mem_cons.mp hc with rfl | hc
      · exact h
      · exact SortKey.cmp_lt_trans hkey hchild (hl' c hc) h (hhead c hc)
    · next h => exact absurd h (hnew child List.mem_cons_self)
    · next h =>
      refine List.pairwise_cons.mpr ⟨fun c hc => ?_, ih hl' hnew' hrest⟩
      rcases (mem_insertInto hnew' c).mp hc with rfl | hc
      · exact SortKey.cmp_gt_iff_lt.mp h
      · exact hhead c hc

theorem sorted_insert {directions : SortKey.Directions} {s : Siblings} {key : SortKey}
    {id : EntryId} (hkey : key.Follows directions) (hf : s.Follow directions)
    (hnew : ∀ child ∈ s.toList, key.cmp child.1 ≠ .eq) (hs : s.Sorted) :
    (s.insert key id).Sorted :=
  pairwise_insertInto hkey hf hnew hs

theorem sorted_erase {s : Siblings} (hs : s.Sorted) (key : SortKey) : (s.erase key).Sorted :=
  List.Pairwise.sublist (List.eraseP_sublist) hs

theorem Sorted.nodup {s : Siblings} (hs : s.Sorted) : s.toList.Nodup :=
  hs.imp fun {a b} h heq => by
    rw [heq, SortKey.cmp_self] at h
    exact Ordering.noConfusion h

theorem Sorted.eq_of_cmp_eq {s : Siblings} (hs : s.Sorted) {a b : SortKey × EntryId}
    (ha : a ∈ s.toList) (hb : b ∈ s.toList) (h : a.1.cmp b.1 = .eq) : a = b := by
  refine Classical.byContradiction fun hne => ?_
  have hp : s.toList.Pairwise fun a b => a.1.cmp b.1 ≠ .eq := hs.imp fun {a b} hlt => by
    rw [hlt]
    exact Ordering.noConfusion
  have : Std.Symm fun a b : SortKey × EntryId => a.1.cmp b.1 ≠ .eq := by
    refine ⟨fun a b hab hba => ?_⟩
    rw [SortKey.cmp_swap b.1 a.1, hba] at hab
    exact hab rfl
  exact hp.forall ha hb hne h

theorem eraseP_eq_filter {α : Type} {p : α → Bool} {l : List α}
    (h : l.Pairwise fun a b => p a = true → p b = false) : l.eraseP p = l.filter (!p ·) := by
  induction l with
  | nil => rfl
  | cons a rest ih =>
    obtain ⟨ha, hrest⟩ := List.pairwise_cons.mp h
    cases hp : p a with
    | false =>
      rw [List.eraseP_cons_of_neg (by simp [hp]), ih hrest,
        List.filter_cons_of_pos (by simp [hp])]
    | true =>
      have : rest.filter (!p ·) = rest := List.filter_eq_self.mpr fun b hb => by
        rw [ha b hb hp, Bool.not_false]
      rw [List.eraseP_cons_of_pos hp, List.filter_cons_of_neg (by simp [hp]), this]

theorem mem_erase {s : Siblings} (hs : s.Sorted) {key : SortKey} {id : EntryId}
    (hmem : (key, id) ∈ s.toList) (c : SortKey × EntryId) :
    c ∈ (s.erase key).toList ↔ c ≠ (key, id) ∧ c ∈ s.toList := by
  have hp : s.toList.Pairwise fun a b =>
      (key.cmp a.1 == .eq) = true → (key.cmp b.1 == .eq) = false := by
    refine List.Pairwise.imp_of_mem (fun {a b} ha hb hlt h => ?_) hs
    have haeq : (key, id) = a := hs.eq_of_cmp_eq hmem ha (beq_iff_eq.mp h)
    rw [← haeq] at hlt
    rw [hlt]
    rfl
  rw [erase, eraseP_eq_filter hp, List.mem_filter]
  constructor
  · rintro ⟨hc, hne⟩
    refine ⟨fun heq => ?_, hc⟩
    rw [heq, SortKey.cmp_self] at hne
    exact absurd hne (by decide)
  · rintro ⟨hne, hc⟩
    refine ⟨hc, ?_⟩
    cases hcmp : (key.cmp c.1 == .eq) with
    | false => rfl
    | true => exact absurd (hs.eq_of_cmp_eq hmem hc (beq_iff_eq.mp hcmp)).symm hne

theorem firstWithin?_eq_some {s : Siblings} {range : SortKey.Range} {id : EntryId}
    (h : s.firstWithin? range = some id) :
    ∃ key, (key, id) ∈ s.toList ∧ range.contains key = true := by
  obtain ⟨child, hfind, rfl⟩ := Option.map_eq_some_iff.mp h
  exact ⟨child.1, List.mem_of_find?_eq_some hfind, by simpa using List.find?_some hfind⟩

theorem firstWithin?_eq_none {s : Siblings} {range : SortKey.Range} :
    s.firstWithin? range = none ↔ ∀ child ∈ s.toList, range.contains child.1 = false := by
  simp [firstWithin?, List.find?_eq_none]

theorem isEmpty_iff (s : Siblings) : s.isEmpty = true ↔ s.toList = [] := List.isEmpty_iff

end Siblings

end CategorizedIndex
