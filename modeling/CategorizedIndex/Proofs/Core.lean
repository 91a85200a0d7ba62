import CategorizedIndex.Proofs.Siblings
import CategorizedIndex.Tree.Commit

/-! # Cores

What is set when an entry is attached never changes: its names, its key, its values and
the entry above it. Category entries are built from a step of a path, documents from the
values of a row; either way the key follows the directions of the configuration, and
entries whose keys compare equal have the same label.
-/
namespace CategorizedIndex

/-- What tells the children of one entry apart. -/
inductive Label
  | category (step : CategoryStep)
  | document (id : ScopedId)
  deriving DecidableEq

/-- The step that a category key was built from. -/
def SortKey.step (k : SortKey) : CategoryStep :=
  ⟨k.columnWord, k.slots.head?.bind (·.scalar?), k.slots.head?.any (·.descending)⟩

/-- The part of an entry that never changes. -/
structure Core where
  scopedId : ScopedId
  unid : String
  key : SortKey
  values : ColumnValues
  parent : Option EntryId

def Entry.core (e : Entry) : Core := ⟨e.scopedId, e.unid, e.key, e.values, e.parent⟩

namespace Config

/-- The declared direction of each category column and of each sort position. -/
def directions (c : Config) : SortKey.Directions := fun isCategory column position =>
  match isCategory, column with
  | true, .value i => (c.columns[i]?).any (·.isDescending)
  | true, _ => false
  | false, _ => (c.documentSortColumns[position]?).any (·.isDescending)

end Config

/-- A step of a category column in its direction, whose value is no empty text. -/
structure CategoryStep.Fits (config : Config) (step : CategoryStep) : Prop where
  column : ∃ column, config.columns[step.column]? = some column ∧ column.isCategory = true ∧
    step.descending = column.isDescending
  value : step.value.filter (!·.isEmptyText) = step.value

theorem CategoryStep.Fits.eq {config : Config} {a b : CategoryStep} (ha : a.Fits config)
    (hb : b.Fits config) (hc : a.column = b.column) (hv : a.value = b.value) : a = b := by
  obtain ⟨ca, hca, -, hda⟩ := ha.column
  obtain ⟨cb, hcb, -, hdb⟩ := hb.column
  rw [hc, hcb] at hca
  obtain rfl := Option.some.inj hca
  cases a
  cases b
  simp only at hc hv hda hdb
  rw [hc, hv, hda, hdb]

theorem Slot.scalar?_ofScalar {v : Option Scalar} (hv : v.filter (!·.isEmptyText) = v)
    (descending : Bool) : (ofScalar v descending).scalar? = v := by
  simp [ofScalar, scalar?, Bound.value?, hv]

namespace SortKey

theorem slotsFollow_documentSlots (config : Config) (values : ColumnValues) :
    SlotsFollow (fun i => (config.documentSortColumns[i]?).any (·.isDescending))
      (Batch.documentSlots config values) := by
  unfold Batch.documentSlots
  generalize config.documentSortColumns = columns
  induction columns with
  | nil => trivial
  | cons column rest ih => exact ⟨fun _ _ => by simp [Slot.ofScalar], by simpa using ih⟩

theorem document_follows (config : Config) (values : ColumnValues) (id : ScopedId) :
    (document (Batch.documentSlots config values) id).Follows config.directions :=
  slotsFollow_documentSlots config values

theorem stored_document (config : Config) (values : ColumnValues) (id : ScopedId) :
    (document (Batch.documentSlots config values) id).Stored where
  slots s hs := by
    obtain ⟨column, -, rfl⟩ := List.mem_map.mp hs
    exact ⟨_, rfl⟩
  origin := ⟨id.origin, rfl⟩

theorem category_follows {config : Config} {step : CategoryStep} (h : step.Fits config)
    (id : ScopedId) :
    (category step.column step.value step.descending id).Follows config.directions := by
  obtain ⟨column, hc, -, hd⟩ := h.column
  refine ⟨fun _ _ => ?_, trivial⟩
  simp [category, Config.directions, Slot.ofScalar, hc, hd]

theorem step_category {config : Config} {step : CategoryStep} (h : step.Fits config)
    (id : ScopedId) : (category step.column step.value step.descending id).step = step := by
  have hv := Slot.scalar?_ofScalar h.value step.descending
  simp only [SortKey.step, category, columnWord, List.head?_cons, Option.bind_some, hv,
    Option.any_some]
  rfl

end SortKey

namespace Core

def isCategory (c : Core) : Bool := c.scopedId.isCategory

def label (c : Core) : Label :=
  if c.isCategory then .category c.key.step else .document c.scopedId

def root : Core := ⟨.root, "", .category 0 none false .root, ∅, none⟩

theorem isCategory_root : root.isCategory = true := ScopedId.isCategory_category 0

/-- The core is built as the configuration says. -/
inductive Fits (config : Config) : Core → Prop
  | category (step : CategoryStep) (id : ScopedId) (parent : Option EntryId)
      (hstep : step.Fits config) (hid : id.isCategory = true)
      (horigin : id.origin = ScopedId.categoryOrigin) :
      Fits config ⟨id, "", .category step.column step.value step.descending id,
        Tree.categoryValues config step, parent⟩
  | document (id : ScopedId) (unid : String) (values : ColumnValues) (parent : Option EntryId)
      (hid : id.isCategory = false) :
      Fits config ⟨id, unid, .document (Batch.documentSlots config values) id, values, parent⟩

variable {config : Config} {c d : Core}

theorem exists_step (h : c.isCategory = true) :
    ∃ step, c.label = .category step := by
  rw [label, h]
  exact ⟨_, rfl⟩

theorem label_document (h : c.isCategory = false) : c.label = .document c.scopedId := by
  rw [label, h]
  rfl

theorem isCategory_of_label {step : CategoryStep} (h : c.label = .category step) :
    c.isCategory = true := by
  cases hc : c.isCategory with
  | true => rfl
  | false =>
    rw [label_document hc] at h
    cases h

theorem Fits.follows (h : c.Fits config) : c.key.Follows config.directions := by
  cases h with
  | category step id _ hstep _ => exact SortKey.category_follows hstep id
  | document id _ values _ _ => exact SortKey.document_follows config values id

theorem Fits.stored (h : c.Fits config) : c.key.Stored := by
  cases h with
  | category step id _ _ _ => exact SortKey.stored_category _ _ _ id
  | document id _ values _ _ => exact SortKey.stored_document config values id

theorem Fits.isCategory_key (h : c.Fits config) : c.key.isCategory = c.isCategory := by
  cases h with
  | category _ _ _ _ hid => exact hid.symm
  | document _ _ _ _ hid => exact hid.symm

theorem Fits.isCategory_of_cmp_lt (hc : c.Fits config) (hd : d.Fits config)
    (hlt : c.key.cmp d.key = .lt) (hcat : d.isCategory = true) : c.isCategory = true := by
  cases hcase : c.isCategory with
  | true => rfl
  | false =>
    rw [SortKey.cmp_eq, hc.isCategory_key, hd.isCategory_key, hcase, hcat] at hlt
    cases hlt

theorem Fits.label_eq_of_cmp_eq (hc : c.Fits config) (hd : d.Fits config)
    (h : c.key.cmp d.key = .eq) : c.label = d.label := by
  obtain ⟨hcat, hcol, hslots, horigin, hid⟩ := (SortKey.cmp_eq_eq_iff _ _).mp h
  cases hc with
  | category s i _ hs hi =>
    cases hd with
    | category t j _ ht hj =>
      have hcol' : s.column = t.column := Bound.value.inj hcol
      have hv : s.value = t.value := by
        simpa [SortKey.category, Slot.ofScalar, hs.value, ht.value] using hslots
      obtain rfl := hs.eq ht hcol' hv
      simp [label, isCategory, hi, hj, SortKey.step_category hs]
    | document j _ _ _ hj => exact Bool.noConfusion hcat
  | document i _ _ _ hi =>
    cases hd with
    | category t j _ ht hj => exact Bool.noConfusion hcat
    | document j _ _ _ hj =>
      have horigin' : i.origin = j.origin := Bound.value.inj horigin
      have : i = j := by
        cases i
        cases j
        exact congrArg₂ ScopedId.mk horigin' hid
      simp [label, isCategory, hj, this]

theorem Fits.contains_categoryBounds_iff (hc : c.Fits config) {step : CategoryStep}
    (hstep : step.Fits config) :
    (SortKey.categoryBounds step.column step.value step.descending).contains c.key = true ↔
      c.label = .category step := by
  rw [SortKey.contains_categoryBounds hc.stored]
  cases hc with
  | category s i _ hs hi =>
    simp only [label, isCategory, hi, if_true, Label.category.injEq, SortKey.step_category hs]
    constructor
    · rintro ⟨-, hcol, hslots⟩
      have hv : s.value = step.value := by
        simpa [SortKey.category, Slot.ofScalar, hs.value, hstep.value] using hslots
      exact hs.eq hstep (Bound.value.inj hcol) hv
    · rintro rfl
      exact ⟨rfl, rfl, rfl⟩
  | document i _ _ _ hi =>
    simp only [label, isCategory, hi, SortKey.document, Bool.false_eq_true, false_and, if_false,
      reduceCtorEq]

end Core

end CategorizedIndex
