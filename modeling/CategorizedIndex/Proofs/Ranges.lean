import CategorizedIndex.Proofs.Replay.Stands

/-! # What the ranges of keys cover

Siblings are searched by closed ranges between two keys that are never stored. The range of
a category value covers the categories of its column that hold the value, for every origin,
id and direction, and nothing else. The range of all categories covers each of them. The
range of all documents has a slot at its lower end, so it covers the documents with at
least one slot; a document without slots comes before it.
-/
namespace CategorizedIndex

namespace Slot

/-- What counts as null: nothing, or an empty text. -/
def IsNull (v : Option Scalar) : Prop := v = none ∨ v = some (.text "")

/-- The value of a category against the value that is looked for: null if that is null, and
otherwise equal to it in the order of scalars. -/
structure Finds (sought held : Option Scalar) : Prop where
  null : IsNull sought → IsNull held
  equal : ∀ a, sought = some a → ¬ IsNull sought → ∃ b, held = some b ∧ b.cmp? a = some .eq

theorem value_ofScalar_some (a : Scalar) (descending : Bool) :
    (ofScalar (some a) descending).value = .value (if a = .text "" then none else some a) := by
  by_cases ha : a = .text ""
  · subst ha
    rfl
  · simp [ofScalar, Option.filter, Scalar.isEmptyText, ha]

theorem value_ofScalar_eq_iff (sought held : Option Scalar) (descending descending' : Bool) :
    (ofScalar held descending').value = (ofScalar sought descending).value ↔
      Finds sought held := by
  have hsome : ∀ a : Scalar, IsNull (some a) ↔ a = .text "" := fun a => by simp [IsNull]
  have hnone : IsNull none := Or.inl rfl
  constructor
  · intro h
    constructor
    · intro hnull
      cases held with
      | none => exact hnone
      | some b =>
        refine (hsome b).mpr (Classical.byContradiction fun hb => ?_)
        rw [value_ofScalar_some, if_neg hb] at h
        rcases hnull with rfl | rfl
        · cases h
        · cases h
    · rintro a rfl hnull
      rw [hsome] at hnull
      rw [value_ofScalar_some, if_neg hnull] at h
      cases held with
      | none => cases h
      | some b =>
        rw [value_ofScalar_some] at h
        split at h
        · cases h
        · exact ⟨b, rfl, Scalar.cmp?_eq_eq_iff.mpr (Option.some.inj (Bound.value.inj h))⟩
  · intro h
    have hnull : ∀ v d, IsNull v → (ofScalar v d).value = .value none := by
      rintro v d (rfl | rfl) <;> rfl
    by_cases hs : IsNull sought
    · rw [hnull _ _ hs, hnull _ _ (h.null hs)]
    · cases sought with
      | none => exact absurd hnone hs
      | some a =>
        obtain ⟨b, rfl, hb⟩ := h.equal a rfl hs
        rw [Scalar.cmp?_eq_eq_iff.mp hb]
        rfl

end Slot

namespace SortKey

theorem not_contains_document_categoryBounds (column : Nat) (value : Option Scalar)
    (descending : Bool) (slots : List Slot) (id : ScopedId) :
    (categoryBounds column value descending).contains (document slots id) = false := by
  have hsection : (document slots id).cmp (categoryBounds column value descending).high = .gt := by
    rw [cmp_eq]
    rfl
  rw [Range.contains, hsection, Ordering.isLE_gt, Bool.and_false]

theorem categoryBounds_low_lt_high (column : Nat) (value : Option Scalar) (descending : Bool) :
    (categoryBounds column value descending).low.cmp
      (categoryBounds column value descending).high = .lt := by
  have hheads : compareHeads (categoryBounds column value descending).low
      (categoryBounds column value descending).high = .eq :=
    (compareHeads_eq_eq_iff _ _).mpr ⟨rfl, rfl, rfl⟩
  rw [cmp_eq_compareHeads, hheads]
  rfl

/-- The range of a category value covers the categories of the column whose value is found,
whatever their direction, origin and id, and no document. -/
theorem contains_categoryBounds_iff_finds (column : Nat) (value : Option Scalar)
    (descending : Bool) :
    let range := categoryBounds column value descending
    range.low.cmp range.high = .lt ∧
    (∀ column' value' descending' id,
      range.contains (category column' value' descending' id) = true ↔
        column' = column ∧ Slot.Finds value value') ∧
    ∀ slots id, range.contains (document slots id) = false := by
  intro range
  refine ⟨categoryBounds_low_lt_high column value descending, ?_,
    not_contains_document_categoryBounds column value descending⟩
  intro column' value' descending' id
  rw [contains_categoryBounds (stored_category column' value' descending' id)]
  constructor
  · rintro ⟨-, hcolumn, hslots⟩
    exact ⟨Bound.value.inj hcolumn,
      (Slot.value_ofScalar_eq_iff value value' descending descending').mp (List.cons.inj hslots).1⟩
  · rintro ⟨rfl, hfinds⟩
    exact ⟨rfl, rfl, congrArg (fun v => [v])
      ((Slot.value_ofScalar_eq_iff value value' descending descending').mpr hfinds)⟩

theorem isLE_low_documents (slots : List Slot) (id : ScopedId) :
    (documents.low.cmp (document slots id)).isLE = true ↔ slots ≠ [] := by
  have hcmp : documents.low.cmp (document slots id) =
      (compareSlotLists [.lowest] slots).then .lt := by
    rw [cmp_eq]
    rfl
  rw [hcmp]
  cases slots with
  | nil => decide
  | cons s rest =>
    have hslots : compareSlots [.lowest] (s :: rest) = Slot.lowest.cmp s := by
      simp only [compareSlots]
      cases Slot.lowest.cmp s <;> rfl
    have hfirst : (Slot.lowest.cmp s).isLE = true := Bound.low_isLE _ _
    have hlength : (compare [Slot.lowest].length (s :: rest).length).isLE = true := by
      rw [Nat.isLE_compare]
      simp
    rw [compareSlotLists, hslots]
    revert hfirst hlength
    cases Slot.lowest.cmp s <;> cases compare [Slot.lowest].length (s :: rest).length <;> simp

theorem contains_document_documents (slots : List Slot) (id : ScopedId) :
    documents.contains (document slots id) = true ↔ slots ≠ [] := by
  have hhigh : (document slots id).cmp documents.high = .lt := by
    rw [cmp_eq]
    rfl
  rw [Range.contains, hhigh, Ordering.isLE_lt, Bool.and_true, isLE_low_documents]

theorem not_contains_document_categories (slots : List Slot) (id : ScopedId) :
    categories.contains (document slots id) = false := by
  have hsection : (document slots id).cmp categories.high = .gt := by
    rw [cmp_eq]
    rfl
  rw [Range.contains, hsection, Ordering.isLE_gt, Bool.and_false]

/-! ## Columns as machine words -/

/-- The lenient comparison where the column above all others is the last machine word. -/
def cmpWords (a b : SortKey) : Ordering :=
  (compareSection a.isCategory b.isCategory).then
    ((compare a.columnWord b.columnWord).then
      ((compareSlotLists a.slots b.slots).then
        ((Bound.cmp compare a.origin b.origin).then (compare a.id b.id))))

def Range.containsWords (r : Range) (k : SortKey) : Bool :=
  (r.low.cmpWords k).isLE && (k.cmpWords r.high).isLE

theorem containsWords_category (isCategory : Bool) (column : UInt64) (value : Option Scalar)
    (descending : Bool) (id : ScopedId) :
    (openRange isCategory).containsWords (category column.toNat value descending id) =
      (openRange isCategory).contains (category column.toNat value descending id) := by
  have hlow : (openRange isCategory).low.cmpWords (category column.toNat value descending id) =
      (openRange isCategory).low.cmp (category column.toNat value descending id) := by
    rw [cmp_eq]
    rfl
  have hhigh : (category column.toNat value descending id).cmpWords (openRange isCategory).high =
      (category column.toNat value descending id).cmp (openRange isCategory).high := by
    have hslots : compareSlotLists (category column.toNat value descending id).slots
        (openRange isCategory).high.slots = .lt := rfl
    have hword : (compare (category column.toNat value descending id).columnWord
        (openRange isCategory).high.columnWord).then .lt = .lt := by
      have hle : compare column.toNat 0xffffffffffffffff ≠ .gt :=
        Nat.compare_ne_gt.mpr (Nat.le_of_lt_succ column.toNat_lt)
      simp only [category, openRange, columnWord]
      revert hle
      cases compare column.toNat 0xffffffffffffffff <;> simp
    rw [cmp_eq, cmpWords, hslots, Ordering.lt_then, hword]
    rfl
  rw [Range.containsWords, Range.contains, hlow, hhigh]

theorem containsWords_document (isCategory : Bool) (slots : List Slot) (id : ScopedId) :
    (openRange isCategory).containsWords (document slots id) =
      (openRange isCategory).contains (document slots id) := by
  rw [Range.containsWords, Range.contains, cmp_eq, cmp_eq]
  rfl

/-- The open ranges tell categories from documents: the one of the categories covers them all
and no document, the one of the documents no category and every document with a slot. With
columns as machine words they cover the same. -/
theorem openRanges_split (column : Nat) (value : Option Scalar) (descending : Bool)
    (slots : List Slot) (id : ScopedId) :
    (categories.contains (category column value descending id) = true ∧
      documents.contains (category column value descending id) = false) ∧
    (categories.contains (document slots id) = false ∧
      (documents.contains (document slots id) = true ↔ slots ≠ [])) ∧
    ∀ isCategory,
      (∀ word : UInt64,
        (openRange isCategory).containsWords (category word.toNat value descending id) =
          (openRange isCategory).contains (category word.toNat value descending id)) ∧
      (openRange isCategory).containsWords (document slots id) =
        (openRange isCategory).contains (document slots id) := by
  have hstored := stored_category column value descending id
  refine ⟨⟨?_, ?_⟩, ⟨?_, ?_⟩, fun isCategory => ⟨fun word => ?_, ?_⟩⟩
  · exact contains_categories hstored rfl (List.cons_ne_nil _ _)
  · exact contains_documents hstored (List.cons_ne_nil _ _) fun h => Bool.noConfusion h
  · exact not_contains_document_categories slots id
  · exact contains_document_documents slots id
  · exact containsWords_category isCategory word value descending id
  · exact containsWords_document isCategory slots id

/-- Documents that no column orders have no slots, and none of them is covered. -/
theorem not_contains_document_without_slots :
    (document [] ⟨"desk", 1⟩).isCategory = false ∧
      documents.contains (document [] ⟨"desk", 1⟩) = false := by decide

end SortKey

end CategorizedIndex
