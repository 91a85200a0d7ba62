import CategorizedIndex.Proofs.Siblings
import Mathlib.Data.Set.Defs

/-! # The comparison of siblings is a total order

However characters are brought to lower case, keys that agree on the direction of every
sort position are totally ordered, and a key that holds no sentinel compares equal to
nothing but itself up to directions. Keys carry the scoped ids of their entries, so what is
filed under one id never takes the place of what is filed under another.
-/
namespace CategorizedIndex

namespace Number

/-- The IEEE total order of bit patterns: what is negative comes first, and of two negative
ones the one with the greater magnitude. -/
def totalOrder (x y : Number) : Ordering :=
  match x.isNegative, y.isNegative with
  | false, false => compare x.magnitude y.magnitude
  | true, true => compare y.magnitude x.magnitude
  | true, false => .lt
  | false, true => .gt

theorem cmp_eq_totalOrder (x y : Number) : x.cmp y = x.totalOrder y := by
  unfold cmp rank totalOrder
  cases x.isNegative <;> cases y.isNegative <;>
    simp only [compare, compareOfLessAndEq, if_true, Bool.false_eq_true, if_false]
  case true.false => exact if_pos (by omega)
  case false.true => exact (if_neg (by omega)).trans (if_neg (by omega))
  all_goals exact if_congr (by omega) rfl (if_congr (by omega) rfl rfl)

end Number

namespace SortKey

/-- The values of the keys declare one direction at each position, apart for each section and
column. -/
def Agree (S : Set SortKey) : Prop :=
  ∀ k ∈ S, ∀ l ∈ S, k.isCategory = l.isCategory → k.column = l.column →
    ∀ (i : Nat) s t v w, k.slots[i]? = some s → l.slots[i]? = some t → s.value = .value v →
      t.value = .value w → s.descending = t.descending

/-- The key ends in the scoped id. -/
def Names (k : SortKey) (s : ScopedId) : Prop := k.origin = .value s.origin ∧ k.id = s.id

theorem names_document (slots : List Slot) (s : ScopedId) : (document slots s).Names s := ⟨rfl, rfl⟩

/-- Keys are compared as the children of an entry have to be. -/
structure Orders (lower : Char → List Char) : Prop where
  swap : ∀ a b, cmpBy lower b a = (cmpBy lower a b).swap
  total : ∀ S, Agree S → Std.TransCmp fun a b : {k // k ∈ S} => cmpBy lower a.1 b.1
  categoriesFirst : ∀ a b : SortKey, a.isCategory = true → b.isCategory = false →
    cmpBy lower a b = .lt
  equal : ∀ a b : SortKey, cmpBy lower a b = .eq →
    a.isCategory = b.isCategory ∧ a.column = b.column ∧ a.slots.length = b.slots.length ∧
      (∀ i : Nat, (a.slots[i]?).map (·.value) = (b.slots[i]?).map (·.value)) ∧
      a.origin = b.origin ∧ a.id = b.id
  apart : ∀ {a b : SortKey} {s t}, a.Names s → b.Names t → s ≠ t → cmpBy lower a b ≠ .eq
  numbers : ∀ x y, Scalar.compareBy lower (.number x) (.number y) = x.totalOrder y

open Classical in
theorem Agree.exists_directions {S : Set SortKey} (h : Agree S) :
    ∃ directions : Directions, ∀ k ∈ S, k.Follows directions := by
  refine ⟨fun isCategory column i => decide (∃ l ∈ S, l.isCategory = isCategory ∧
    l.column = column ∧ ∃ t w, l.slots[i]? = some t ∧ t.value = .value w ∧ t.descending = true),
    fun k hk => slotsFollow_iff.mpr fun i s hs v hv => ?_⟩
  cases hd : s.descending with
  | true => exact (decide_eq_true ⟨k, hk, rfl, rfl, s, v, hs, hv, hd⟩).symm
  | false =>
    refine (decide_eq_false ?_).symm
    rintro ⟨l, hl, hsection, hcolumn, t, w, ht, hw, htrue⟩
    have heq := h k hk l hl hsection.symm hcolumn.symm i s t v w hs ht hv hw
    exact Bool.noConfusion (hd.symm.trans (heq.trans htrue))

theorem eq_of_names {a b : SortKey} {s t : ScopedId} (ha : a.Names s) (hb : b.Names t)
    (horigin : a.origin = b.origin) (hid : a.id = b.id) : s = t := by
  rw [ha.1, hb.1] at horigin
  rw [ha.2, hb.2] at hid
  cases s
  cases t
  exact congrArg₂ ScopedId.mk (Bound.value.inj horigin) hid

theorem orders (lower : Char → List Char) : Orders lower := by
  constructor
  case swap => exact fun a b => cmpBy_swap lower a b
  case total =>
    intro S hS
    obtain ⟨directions, hfollow⟩ := hS.exists_directions
    refine { eq_swap := ?_, isLE_trans := ?_ }
    · exact fun {a b} => cmpBy_swap lower b a
    · exact fun {a b c} hab hbc => cmpBy_isLE_trans lower (hfollow a a.2) (hfollow b b.2)
        (hfollow c c.2) hab hbc
  case categoriesFirst =>
    intro a b ha hb
    rw [cmpBy, ha, hb]
    rfl
  case equal =>
    intro a b h
    obtain ⟨hsection, hcolumn, hslots, horigin, hid⟩ := (cmpBy_eq_eq_iff lower a b).mp h
    refine ⟨hsection, hcolumn, ?_, fun i => ?_, horigin, hid⟩
    · simpa using congrArg List.length hslots
    · rw [← List.getElem?_map, ← List.getElem?_map, hslots]
  case apart =>
    intro a b s t ha hb hne h
    obtain ⟨-, -, -, horigin, hid⟩ := (cmpBy_eq_eq_iff lower a b).mp h
    exact hne (eq_of_names ha hb horigin hid)
  case numbers => exact Number.cmp_eq_totalOrder

end SortKey

namespace Siblings

variable {s : Siblings} {key : SortKey} {id : EntryId} {child : SortKey × EntryId}

theorem mem_insertInto_of_ne {l : List (SortKey × EntryId)} (hchild : child ∈ l)
    (hne : key.cmp child.1 ≠ .eq) : child ∈ insertInto key id l := by
  induction l with
  | nil => cases hchild
  | cons first rest ih =>
    unfold insertInto
    rcases List.mem_cons.mp hchild with rfl | hrest
    · split
      · exact List.mem_cons_of_mem _ List.mem_cons_self
      · next h => exact absurd h hne
      · exact List.mem_cons_self
    · split
      · exact List.mem_cons_of_mem _ hchild
      · exact List.mem_cons_of_mem _ hrest
      · exact List.mem_cons_of_mem _ (ih hrest)

theorem mem_erase_of_ne (hchild : child ∈ s.toList) (hne : key.cmp child.1 ≠ .eq) :
    child ∈ (s.erase key).toList :=
  (List.mem_eraseP_of_neg (by simpa using hne)).mpr hchild

/-- The comparison is a total order under any casing, among them that of Unicode, under which
children are filed; so what is filed or struck under one scoped id leaves every child of
another where it is. -/
theorem orders_children :
    (∀ lower, SortKey.Orders lower) ∧ SortKey.cmp = SortKey.cmpBy Text.lowerChar ∧
    ∀ (s : Siblings) (key : SortKey) (id : EntryId) (child : SortKey × EntryId) (named other),
      key.Names named → child.1.Names other → named ≠ other → child ∈ s.toList →
      child ∈ (s.insert key id).toList ∧ child ∈ (s.erase key).toList := by
  refine ⟨SortKey.orders, SortKey.cmp_eq_cmpBy, ?_⟩
  intro s key id child named other hkey hother hne hchild
  have hcmp : key.cmp child.1 ≠ .eq := by
    rw [SortKey.cmp_eq_cmpBy]
    exact (SortKey.orders Text.lowerChar).apart hkey hother hne
  exact ⟨mem_insertInto_of_ne hchild hcmp, mem_erase_of_ne hchild hcmp⟩

open SortKey in
/-- In a descending column zero stands before minus zero, both behind the low sentinel, and
the two do not take each other's place. -/
theorem orders_both_zeros :
    let zero := document [.ofScalar (some (.number ⟨0⟩)) true] ⟨"desk", 1⟩
    let minusZero := document [.ofScalar (some (.number ⟨0x8000000000000000⟩)) true] ⟨"desk", 2⟩
    let s := empty.insert zero 5
    zero.cmp minusZero = .lt ∧ documents.low.cmp zero = .lt ∧
      (documents.low.cmp minusZero).isLE = true ∧ (zero, 5) ∈ (s.insert minusZero 6).toList := by
  intro zero minusZero s
  obtain ⟨horders, hcmp, hapart⟩ := orders_children
  let S : Set SortKey := {k | k = zero ∨ k = minusZero ∨ k = documents.low}
  have hdown : ∀ k ∈ S, ∀ (i : Nat) t v, k.slots[i]? = some t → t.value = .value v →
      t.descending = true := by
    intro k hk i t v ht hv
    rcases hk with rfl | rfl | rfl
    · exact List.mem_singleton.mp (List.mem_of_getElem? ht) ▸ rfl
    · exact List.mem_singleton.mp (List.mem_of_getElem? ht) ▸ rfl
    · exact nomatch (List.mem_singleton.mp (List.mem_of_getElem? ht) ▸ hv :
        Slot.lowest.value = .value v)
  have hagree : Agree S := fun k hk l hl _ _ i t u v w ht hu hv hw =>
    (hdown k hk i t v ht hv).trans (hdown l hl i u w hu hw).symm
  have hlow : documents.low.cmp zero = .lt := by decide +kernel
  have hzeros : zero.cmp minusZero = .lt := by decide +kernel
  refine ⟨hzeros, hlow, ?_, ?_⟩
  · rw [hcmp] at hlow hzeros ⊢
    exact @Std.TransCmp.isLE_trans _ _ ((horders Text.lowerChar).total S hagree)
      ⟨documents.low, Or.inr (Or.inr rfl)⟩ ⟨zero, Or.inl rfl⟩ ⟨minusZero, Or.inr (Or.inl rfl)⟩
      (by rw [hlow]; rfl) (by rw [hzeros]; rfl)
  · exact (hapart s minusZero 6 (zero, 5) ⟨"desk", 2⟩ ⟨"desk", 1⟩ (names_document _ _)
      (names_document _ _) (by decide) List.mem_cons_self).1

end Siblings

end CategorizedIndex
