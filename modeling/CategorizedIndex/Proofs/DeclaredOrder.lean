import CategorizedIndex.Proofs.SiblingOrder
import CategorizedIndex.Proofs.ValueOrder

/-! # Siblings stand as the columns declare

The rows that entries store say in which order siblings stand, without a look at their keys:
groups before documents, groups by their column and their value there, documents by the
first scalars of the sort columns, and by their ids where these do not tell them apart.
-/
namespace CategorizedIndex

open Std

namespace Row

/-- The first scalar of an item. No value, an empty list and an empty text in front are
null. -/
def first? (r : Row) (item : String) : Option Scalar :=
  match r.values[item]? with
  | some (.single v) => if v = .text "" then none else some v
  | some (.list (v :: _)) => if v = .text "" then none else some v
  | _ => none

/-- A group of a category column, which stores one value, or null, for the item of the column
and nothing else. -/
structure Groups (config : Config) (i : Nat) (v : Option Scalar) (r : Row) : Prop where
  category : r.scopedId.isCategory = true
  values : ∃ column, config.columns[i]? = some column ∧ column.isCategory = true ∧
    r.values = (∅ : ColumnValues).insert column.item (.ofScalar? v)

/-- One row may stand before another among siblings. -/
structure InOrder (config : Config) (r s : Row) : Prop where
  sections : s.scopedId.isCategory = true → r.scopedId.isCategory = true
  columns : ∀ {i j v w}, r.Groups config i v → s.Groups config j w → i ≤ j
  groups : ∀ {i v w}, r.Groups config i v → s.Groups config i w →
    ∀ column, config.columns[i]? = some column → column.Orders v w
  documents : r.scopedId.isCategory = false → s.scopedId.isCategory = false →
    ∀ k column, config.documentSortColumns[k]? = some column →
      (∀ c ∈ config.documentSortColumns.take k, r.first? c.item = s.first? c.item) →
      r.first? column.item ≠ s.first? column.item →
      column.Orders (r.first? column.item) (s.first? column.item)
  ties : r.scopedId.isCategory = false → s.scopedId.isCategory = false →
    (∀ c ∈ config.documentSortColumns, r.first? c.item = s.first? c.item) →
      r.scopedId.origin < s.scopedId.origin ∨
        (r.scopedId.origin = s.scopedId.origin ∧ r.scopedId.id < s.scopedId.id)

/-- Where two rows have values to compare, these are of one kind. -/
structure OneKind (config : Config) (r s : Row) : Prop where
  groups : ∀ {i v w}, r.Groups config i (some v) → s.Groups config i (some w) → v.kind = w.kind
  documents : r.scopedId.isCategory = false → s.scopedId.isCategory = false →
    ∀ column ∈ config.documentSortColumns, ∀ v w, r.first? column.item = some v →
      s.first? column.item = some w → v.kind = w.kind

theorem first?_eq (r : Row) (item : String) :
    r.first? item = (r.values[item]?).bind (·.sortValue?) := by
  have hempty : ∀ v : Scalar,
      (if v = .text "" then none else some v) = (some v).filter (!·.isEmptyText) := by
    intro v
    by_cases hv : v = .text "" <;> simp [Scalar.isEmptyText, hv, Option.filter_some]
  cases hr : r.values[item]? with
  | none => simp [first?, hr]
  | some value =>
    cases value with
    | null => simp [first?, hr, ColumnValue.sortValue?, ColumnValue.scalars]
    | single v => simp [first?, hr, hempty, ColumnValue.sortValue?, ColumnValue.scalars]
    | list vs =>
      cases vs with
      | nil => simp [first?, hr, ColumnValue.sortValue?, ColumnValue.scalars]
      | cons v rest => simp [first?, hr, hempty, ColumnValue.sortValue?, ColumnValue.scalars]

end Row

/-- The row that an entry stores. -/
def Entry.row (e : Entry) : Row := ⟨e.scopedId, e.unid, e.values⟩

def Core.row (c : Core) : Row := ⟨c.scopedId, c.unid, c.values⟩

namespace Config

theorem nodup_items {declared : List String} {columns : List Column}
    (h : columnsFault? declared columns = none) :
    (columns.map (·.item)).Nodup ∧ ∀ c ∈ columns, c.item ∉ declared := by
  induction columns generalizing declared with
  | nil => exact ⟨List.nodup_nil, fun c hc => absurd hc List.not_mem_nil⟩
  | cons column rest ih =>
    rw [columnsFault?] at h
    cases hcolumn : columnFault? declared column with
    | some e => simp [hcolumn] at h
    | none =>
      rw [hcolumn] at h
      obtain ⟨hnodup, hrest⟩ := ih h
      have hitem : column.item ∉ declared := by
        intro hmem
        simp [columnFault?, hmem] at hcolumn
        split at hcolumn <;> simp at hcolumn
      constructor
      · refine List.nodup_cons.mpr ⟨fun hmem => ?_, hnodup⟩
        obtain ⟨c, hc, heq⟩ := List.mem_map.mp hmem
        exact hrest c hc (heq ▸ List.mem_cons_self)
      · refine List.forall_mem_cons.mpr ⟨hitem, fun c hc hmem => ?_⟩
        exact hrest c hc (List.mem_cons_of_mem _ hmem)

theorem nodup_items_of_validate {config : Config} (h : config.validate = .ok ()) :
    (config.columns.map (·.item)).Nodup := by
  have hfault := validate_eq_ok_iff.mp h
  rw [fault?] at hfault
  split at hfault
  · exact (nodup_items hfault).1
  · cases hfault

end Config

namespace Row

variable {config : Config} {r : Row} {i j : Nat} {v w : Option Scalar}

theorem Groups.unique (hitems : (config.columns.map (·.item)).Nodup) (h : r.Groups config i v)
    (h' : r.Groups config j w) : i = j ∧ v = w := by
  obtain ⟨c, hc, -, hvalues⟩ := h.values
  obtain ⟨d, hd, -, hvalues'⟩ := h'.values
  have hvalue : r.values[c.item]? = some (.ofScalar? v) := by
    rw [hvalues, Std.ExtTreeMap.getElem?_insert_self]
  rw [hvalues', Std.ExtTreeMap.getElem?_insert] at hvalue
  split at hvalue
  · next hitem =>
    have hitem : d.item = c.item := Std.LawfulEqOrd.eq_of_compare hitem
    have hlt : i < (config.columns.map (·.item)).length := by
      rw [List.length_map]
      exact (List.getElem?_eq_some_iff.mp hc).1
    refine ⟨(List.getElem?_inj hlt hitems).mp ?_, ?_⟩
    · rw [List.getElem?_map, List.getElem?_map, hc, hd, Option.map_some, Option.map_some, hitem]
    · cases v <;> cases w <;> simp_all [ColumnValue.ofScalar?]
  · simp at hvalue

end Row

theorem Slot.directed_compareValues_ne_eq {v w : Option Scalar} (hne : v ≠ w)
    (descending : Bool) : directed descending (compareValues v w) ≠ .eq := by
  rw [Ne, directed_eq_eq, LawfulEqCmp.compare_eq_iff_eq]
  exact hne

theorem then_of_ne_eq {o : Ordering} (h : o ≠ .eq) (o' : Ordering) : o.then o' = o := by
  cases o with
  | eq => exact absurd rfl h
  | lt => rfl
  | gt => rfl

namespace SortKey

theorem cmp_category (i j : Nat) (v w : Option Scalar) (a b : Bool) (s t : ScopedId) :
    (category i v a s).cmp (category j w b t) = (compare i j).then
      (((Slot.ofScalar v a).cmp (Slot.ofScalar w b)).then (compare s t)) := by
  rw [cmp_eq, ScopedId.compare_eq]
  simp [category, compareSlotLists, compareSlots, Bound.cmp, compareSection]

theorem cmp_document (as bs : List Slot) (s t : ScopedId) :
    (document as s).cmp (document bs t) = (compareSlotLists as bs).then (compare s t) := by
  rw [cmp_eq, ScopedId.compare_eq]
  rfl

def slotsOf (columns : List Column) (r : Row) : List Slot :=
  columns.map fun c => ⟨.value (r.first? c.item), c.isDescending⟩

theorem documentSlots_eq (config : Config) (r : Row) :
    Batch.documentSlots config r.values = slotsOf config.documentSortColumns r := by
  refine List.map_congr_left fun c _ => ?_
  have hnull : ((r.values[c.item]?).bind (·.sortValue?)).filter (!·.isEmptyText) =
      (r.values[c.item]?).bind (·.sortValue?) := by
    cases r.values[c.item]? with
    | none => rfl
    | some value => simp [ColumnValue.sortValue?, Option.filter_filter]
  rw [Slot.ofScalar, hnull, r.first?_eq]

theorem compareSlots_slotsOf {columns : List Column} {r s : Row} {k : Nat} {column : Column}
    (hk : columns[k]? = some column)
    (hequal : ∀ c ∈ columns.take k, r.first? c.item = s.first? c.item)
    (hne : r.first? column.item ≠ s.first? column.item) :
    compareSlots (slotsOf columns r) (slotsOf columns s) = Slot.directed column.isDescending
      (Slot.compareValues (r.first? column.item) (s.first? column.item)) := by
  have hcmp : ∀ c : Column, Slot.cmp ⟨.value (r.first? c.item), c.isDescending⟩
      ⟨.value (s.first? c.item), c.isDescending⟩ =
      Slot.directed c.isDescending (Slot.compareValues (r.first? c.item) (s.first? c.item)) := by
    intro c
    simp [Slot.cmp, Bound.cmp]
  induction columns generalizing k with
  | nil => simp at hk
  | cons c rest ih =>
    rw [slotsOf, List.map_cons, slotsOf, List.map_cons, compareSlots, hcmp]
    cases k with
    | zero =>
      obtain rfl := Option.some.inj hk
      exact then_of_ne_eq (Slot.directed_compareValues_ne_eq hne _) _
    | succ k =>
      obtain ⟨hc, hrest⟩ := List.forall_mem_cons.mp (List.take_succ_cons ▸ hequal)
      rw [hc, Slot.directed_eq_eq.mpr ReflCmp.compare_self]
      exact ih hk hrest

theorem compareSlotLists_slotsOf {columns : List Column} {r s : Row}
    (h : ∀ c ∈ columns, r.first? c.item = s.first? c.item) :
    compareSlotLists (slotsOf columns r) (slotsOf columns s) = .eq := by
  rw [compareSlotLists_eq_iff, slotsOf, slotsOf, List.map_map, List.map_map]
  exact List.map_congr_left fun c hc => congrArg Bound.value (h c hc)

end SortKey

theorem CategoryStep.Fits.descending_eq {config : Config} {step : CategoryStep}
    (h : step.Fits config) {column : Column} (hcolumn : config.columns[step.column]? = some column) :
    step.descending = column.isDescending := by
  obtain ⟨column', hcolumn', -, hdescending⟩ := h.column
  rw [Option.some.inj (hcolumn.symm.trans hcolumn')]
  exact hdescending

theorem Slot.cmp_ofScalar {v w : Option Scalar} (hv : v.filter (!·.isEmptyText) = v)
    (hw : w.filter (!·.isEmptyText) = w) (descending : Bool) :
    (ofScalar v descending).cmp (ofScalar w descending) =
      directed descending (compareValues v w) := by
  rw [cmp, ofScalar, ofScalar, hv, hw, Bool.and_self]
  rfl

namespace Core

variable {config : Config} {c d : Core}

theorem Fits.exists_groups (h : c.Fits config) (hcat : c.isCategory = true) :
    ∃ step, step.Fits config ∧ c.label = .category step ∧
      c.key = .category step.column step.value step.descending c.scopedId ∧
      c.row.Groups config step.column step.value := by
  cases h with
  | category step id parent hstep hid horigin =>
    obtain ⟨column, hcolumn, hcategory, -⟩ := hstep.column
    refine ⟨step, hstep, ?_, rfl, hid, column, hcolumn, hcategory, ?_⟩
    · simp [label, isCategory, hid, SortKey.step_category hstep]
    · rw [row, Tree.categoryValues, hcolumn]
  | document id unid values parent hid => exact Bool.noConfusion (hcat.symm.trans hid)

theorem Fits.document_key (h : c.Fits config) (hcat : c.isCategory = false) :
    c.key = .document (SortKey.slotsOf config.documentSortColumns c.row) c.scopedId := by
  cases h with
  | category step id parent hstep hid horigin => exact Bool.noConfusion (hcat.symm.trans hid)
  | document id unid values parent hid => rw [← SortKey.documentSlots_eq]; rfl

theorem Fits.groups_before (hitems : (config.columns.map (·.item)).Nodup) (hc : c.Fits config)
    (hd : d.Fits config) (hne : c.label ≠ d.label) (hlt : c.key.cmp d.key = .lt) {i j : Nat}
    {v w : Option Scalar} (hv : c.row.Groups config i v) (hw : d.row.Groups config j w) :
    i < j ∨ (i = j ∧ ∀ column, config.columns[i]? = some column → column.Orders v w) := by
  obtain ⟨a, ha, hca, hkey, hcv⟩ := hc.exists_groups hv.category
  obtain ⟨b, hb, hdb, hkey', hdw⟩ := hd.exists_groups hw.category
  obtain ⟨rfl, rfl⟩ := hv.unique hitems hcv
  obtain ⟨rfl, rfl⟩ := hw.unique hitems hdw
  rw [hkey, hkey', SortKey.cmp_category, Ordering.then_eq_lt] at hlt
  rcases hlt with hlt | ⟨hcolumns, hlt⟩
  · exact .inl (Nat.compare_eq_lt.mp hlt)
  · have hcolumns := Nat.compare_eq_eq.mp hcolumns
    refine .inr ⟨hcolumns, fun column hcolumn => ?_⟩
    rw [ha.descending_eq hcolumn, hb.descending_eq (hcolumns ▸ hcolumn),
      Slot.cmp_ofScalar ha.value hb.value, Ordering.then_eq_lt] at hlt
    rcases hlt with hlt | ⟨heq, -⟩
    · exact Slot.directed_eq_lt_iff.mp hlt
    · have hvalues := LawfulEqCmp.eq_of_compare (Slot.directed_eq_eq.mp heq)
      exact absurd (hca.trans (ha.eq hb hcolumns hvalues ▸ hdb.symm)) hne

theorem Fits.inOrder (hitems : (config.columns.map (·.item)).Nodup) (hc : c.Fits config)
    (hd : d.Fits config) (hne : c.label ≠ d.label) (hlt : c.key.cmp d.key = .lt) :
    c.row.InOrder config d.row := by
  constructor
  case sections => exact hc.isCategory_of_cmp_lt hd hlt
  case columns =>
    intro i j v w hv hw
    rcases hc.groups_before hitems hd hne hlt hv hw with hij | ⟨rfl, -⟩
    · exact hij.le
    · exact le_rfl
  case groups =>
    intro i v w hv hw column hcolumn
    rcases hc.groups_before hitems hd hne hlt hv hw with hii | ⟨-, horders⟩
    · exact absurd hii (Nat.lt_irrefl i)
    · exact horders column hcolumn
  case documents =>
    intro hcdoc hddoc k column hk hequal hne
    rw [hc.document_key hcdoc, hd.document_key hddoc, SortKey.cmp_document,
      SortKey.compareSlotLists, SortKey.compareSlots_slotsOf hk hequal hne] at hlt
    have hdecides := Slot.directed_compareValues_ne_eq hne column.isDescending
    rw [then_of_ne_eq hdecides, then_of_ne_eq hdecides] at hlt
    exact Slot.directed_eq_lt_iff.mp hlt
  case ties =>
    intro hcdoc hddoc hequal
    rw [hc.document_key hcdoc, hd.document_key hddoc, SortKey.cmp_document,
      SortKey.compareSlotLists_slotsOf hequal, Ordering.eq_then, ScopedId.compare_eq,
      Ordering.then_eq_lt, LawfulEqOrd.compare_eq_iff_eq] at hlt
    exact hlt.imp compareOfLessAndEq_eq_lt.mp (And.imp_right compare_eq_lt.mp)

theorem Fits.oneKind (hitems : (config.columns.map (·.item)).Nodup) (hc : c.Fits config)
    (hd : d.Fits config)
    (hkinds : c.key.isCategory = d.key.isCategory → c.key.column = d.key.column →
      ∀ {i : Nat} {v w : Scalar}, c.key.slots[i]?.bind (·.scalar?) = some v →
        d.key.slots[i]?.bind (·.scalar?) = some w → v.kind = w.kind) :
    c.row.OneKind config d.row := by
  constructor
  case groups =>
    intro i v w hv hw
    obtain ⟨a, ha, -, hkey, hcv⟩ := hc.exists_groups hv.category
    obtain ⟨b, hb, -, hkey', hdw⟩ := hd.exists_groups hw.category
    obtain ⟨rfl, hav⟩ := hv.unique hitems hcv
    obtain ⟨hcolumns, hbw⟩ := hw.unique hitems hdw
    rw [hkey, hkey'] at hkinds
    refine hkinds rfl (congrArg Bound.value hcolumns) (i := 0) ?_ ?_
    · exact (Slot.scalar?_ofScalar ha.value a.descending).trans hav.symm
    · exact (Slot.scalar?_ofScalar hb.value b.descending).trans hbw.symm
  case documents =>
    intro hcdoc hddoc column hcolumn v w hv hw
    obtain ⟨k, hk⟩ := List.mem_iff_getElem?.mp hcolumn
    rw [hc.document_key hcdoc, hd.document_key hddoc] at hkinds
    refine hkinds rfl rfl (i := k) ?_ ?_
    · simp [SortKey.document, SortKey.slotsOf, hk, Slot.scalar?, Bound.value?, hv]
    · simp [SortKey.document, SortKey.slotsOf, hk, Slot.scalar?, Bound.value?, hw]

end Core

theorem Tree.Settled.inOrder {config : Config} {t : Tree} {T : Table} (h : t.Settled config T)
    (hitems : (config.columns.map (·.item)).Nodup) (hone : config.strict = true → T.OneKind)
    {p : EntryId} {parent : Entry} (hp : t.get? p = some parent) :
    parent.children.ids.Pairwise fun x y => ∃ d e, t.get? x = some d ∧ t.get? y = some e ∧
      d.row.InOrder config e.row ∧ (config.strict = true → d.row.OneKind config e.row) := by
  have hF := h.sound.formed
  refine List.pairwise_map.mpr (List.Pairwise.imp_of_mem (fun {a b} ha hb hlt => ?_)
    (h.sound.sorted hp))
  obtain ⟨k, x⟩ := a
  obtain ⟨l, y⟩ := b
  obtain ⟨c, hx, hxp, rfl⟩ := (h.sound.children hp k x).mp ha
  obtain ⟨d, hy, hyp, rfl⟩ := (h.sound.children hp l y).mp hb
  have hc := hF.fits hx (hF.ne_root hx hxp)
  have hd := hF.fits hy (hF.ne_root hy hyp)
  have hne : c.label ≠ d.label := by
    intro heq
    obtain rfl := hF.distinct hx hy (hF.ne_root hx hxp) (hF.ne_root hy hyp)
      (hxp.trans hyp.symm) heq
    obtain rfl := Option.some.inj (hx.symm.trans hy)
    rw [SortKey.cmp_self] at hlt
    cases hlt
  have horder := hc.inOrder hitems hd hne hlt
  have hkinds : config.strict = true → c.row.OneKind config d.row := fun hstrict =>
    hc.oneKind hitems hd (h.kind_eq_of_children (hone hstrict) hx hy hxp hyp)
  obtain ⟨e, he, rfl⟩ := skeleton_eq_some_iff.mp hx
  obtain ⟨e', he', rfl⟩ := skeleton_eq_some_iff.mp hy
  exact ⟨e, e', he, he', horder, hkinds⟩

namespace Index

variable {name : String} {config : Config} {filter : Option RowFilter} {x : Index}

/-- In every index that is reached, the children of an entry are those below it, each category
among them is a group of a category column, and they stand in the order that the columns
declare for the rows they store. -/
theorem inOrder_run (hbuild : build name config filter = .ok x) (operations : List Operation) :
    let t := (x.run operations).tree
    ∀ p parent, t.get? p = some parent →
      (∀ y, y ∈ parent.children.ids ↔ ∃ e, t.get? y = some e ∧ e.parent = some p) ∧
      (∀ y ∈ parent.children.ids, ∀ e, t.get? y = some e → e.isCategory = true →
        ∃ i v, e.row.Groups config i v) ∧
      parent.children.ids.Pairwise fun y z => ∃ d e, t.get? y = some d ∧ t.get? z = some e ∧
        d.row.InOrder config e.row ∧ (config.strict = true → d.row.OneKind config e.row) := by
  intro t p parent hp
  obtain ⟨T, hsettled, hone⟩ := exists_settled_run hbuild operations
  have hitems := Config.nodup_items_of_validate (build_eq_ok hbuild).1
  refine ⟨fun y => hsettled.sound.mem_ids hp, fun y hy e he hcat => ?_,
    hsettled.inOrder hitems hone hp⟩
  obtain ⟨d, hd, hparent⟩ := (hsettled.sound.mem_ids hp).mp hy
  obtain rfl := Option.some.inj (he.symm.trans hd)
  have hF := hsettled.sound.formed
  have hskeleton := Tree.skeleton_eq_some he
  obtain ⟨step, -, -, -, hgroups⟩ :=
    (hF.fits hskeleton (hF.ne_root hskeleton hparent)).exists_groups hcat
  exact ⟨step.column, step.value, hgroups⟩

/-- Regions descend, and so do the names in each. -/
def byRegion : Index where
  name := "desc"
  config := ⟨'\\', .expanded, true,
    [⟨"Region", "dept", true, some .descending, none, none⟩,
      ⟨"Name", "name", false, some .descending, none, none⟩]⟩
  filter := none
  tree := .empty

theorem build_byRegion : build "desc" byRegion.config none = .ok byRegion :=
  build_of_faultless (by decide +kernel)

/-- A person of a region. -/
def person (dept name : String) : Addition :=
  ⟨"unid", ((∅ : ColumnValues).insert "dept" (.single (.text dept))).insert "name"
    (.single (.text name))⟩

/-- In a region a part of it comes first, then the persons there from the last to the first. -/
theorem inOrder_persons :
    let change := (((Change.empty "o1").add 1 (person "EU\\Berlin" "Alice")).add 2
      (person "EU" "Bob")).add 4 (person "EU" "Zed")
    let t := (byRegion.run [.change change]).tree
    build "desc" byRegion.config none = .ok byRegion ∧
      (t.get? 1).map (·.children.ids) = some [2, 5, 4] ∧
      ∃ d e, t.get? 5 = some d ∧ t.get? 4 = some e ∧ d.row.first? "name" = some (.text "Zed") ∧
        e.row.first? "name" = some (.text "Bob") ∧ TextBefore "Bob" "Zed" := by
  intro change t
  have hids : (t.get? 1).map (·.children.ids) = some [2, 5, 4] := by decide +kernel
  have hzed : (t.get? 5).map (fun d => (d.isCategory, d.row.first? "name")) =
      some (false, some (.text "Zed")) := by decide +kernel
  have hbob : (t.get? 4).map (fun e => (e.isCategory, e.row.first? "name")) =
      some (false, some (.text "Bob")) := by decide +kernel
  obtain ⟨parent, hparent, hlist⟩ := Option.map_eq_some_iff.mp hids
  obtain ⟨d, hd, hdrow⟩ := Option.map_eq_some_iff.mp hzed
  obtain ⟨e, he, herow⟩ := Option.map_eq_some_iff.mp hbob
  obtain ⟨hdcat, hdname⟩ := Prod.mk.inj hdrow
  obtain ⟨hecat, hename⟩ := Prod.mk.inj herow
  have hpairs := (inOrder_run build_byRegion [.change change] 1 parent hparent).2.2
  rw [hlist] at hpairs
  obtain ⟨d', e', hd', he', horder, -⟩ :=
    (List.pairwise_cons.mp (List.pairwise_cons.mp hpairs).2).1 4 List.mem_cons_self
  obtain rfl := Option.some.inj (hd.symm.trans hd')
  obtain rfl := Option.some.inj (he.symm.trans he')
  have hnames : ValueBefore (e.row.first? "name") (d.row.first? "name") :=
    horder.documents hdcat hecat 0 _ rfl nofun (by simp [hdname, hename])
  rw [hdname, hename] at hnames
  cases hnames with
  | texts h => exact ⟨build_byRegion, hids, d, e, hd, he, hdname, hename, h⟩

end Index

end CategorizedIndex
