import CategorizedIndex.Proofs.History.Ledger
import CategorizedIndex.Proofs.Prepare.Chains
import CategorizedIndex.Proofs.Prepare.Faults
import CategorizedIndex.Proofs.Tree.Groups
import CategorizedIndex.Proofs.Tree.Placements

/-! # The placements of a row

A row that is let through stands once at the end of each chain of its scalars that count, and
nowhere else. That is each chain of its scalars, except where both zeros stand in one column:
the tree has a category for either, but the row is filed under the first of them alone.
-/
namespace CategorizedIndex

namespace Tree.Settled

variable {config : Config} {t : Tree} {T : Table} {s : ScopedId} {placing : Placing}
  {chain path : CategoryPath} {y z : EntryId}

theorem groups_mem_paths (h : t.Settled config T) (hs : T s = some placing)
    (hz : z ∈ t.placementsOf s) : t.groups z ∈ placing.paths := by
  obtain ⟨e, he, rfl⟩ := h.sound.mem_placementsOf.mp hz
  have hcat : e.isCategory = false := (h.fits _ placing hs).1
  obtain ⟨placing', path, hs', hpath, haddress, -⟩ := h.shows.documents (skeleton_eq_some he) hcat
  obtain rfl := Option.some.inj (hs.symm.trans hs')
  rw [documentAddress_groups h.sound.formed he hcat] at haddress
  exact (Skeleton.documentAddress_injective haddress).1 ▸ hpath

theorem exists_of_mem_paths (h : t.Settled config T) (hs : T s = some placing)
    (hpath : path ∈ placing.paths) : ∃ z ∈ t.placementsOf s, t.groups z = path := by
  obtain ⟨z, c, hz, rfl, haddress⟩ := h.shows.complete hs hpath
  obtain ⟨e, he, rfl⟩ := skeleton_eq_some_iff.mp hz
  have hcat : e.isCategory = false := (h.fits _ placing hs).1
  rw [documentAddress_groups h.sound.formed he hcat] at haddress
  exact ⟨z, h.sound.mem_placementsOf.mpr ⟨e, he, rfl⟩,
    (Skeleton.documentAddress_injective haddress).1⟩

theorem eq_of_groups_equal (h : t.Settled config T) (hs : T s = some placing)
    (hy : y ∈ t.placementsOf s) (hz : z ∈ t.placementsOf s)
    (hychain : List.Forall₂ CategoryStep.Equal (t.groups y) chain)
    (hzchain : List.Forall₂ CategoryStep.Equal (t.groups z) chain) : y = z := by
  obtain ⟨d, hd, hds⟩ := h.sound.mem_placementsOf.mp hy
  obtain ⟨e, he, hes⟩ := h.sound.mem_placementsOf.mp hz
  have hF := h.sound.formed
  have hdcat : d.isCategory = false := by rw [Entry.isCategory, hds]; exact (h.fits _ _ hs).1
  have hecat : e.isCategory = false := by rw [Entry.isCategory, hes]; exact (h.fits _ _ hs).1
  refine hF.address_injective (skeleton_eq_some hd) (skeleton_eq_some he) ?_
  rw [documentAddress_groups hF hd hdcat, documentAddress_groups hF he hecat, hds, hes,
    CategoryStep.eq_of_forall₂_equal (fits_groups hF hd) (fits_groups hF he) hychain hzchain]

theorem existsUnique_of_mem_paths (h : t.Settled config T) (hs : T s = some placing)
    (hchain : chain ∈ placing.paths) : ∃! z, z ∈ t.placementsOf s ∧
      List.Forall₂ CategoryStep.Equal (t.groups z) chain := by
  obtain ⟨z, hz, hgroups⟩ := h.exists_of_mem_paths hs hchain
  have hequal : List.Forall₂ CategoryStep.Equal (t.groups z) chain :=
    hgroups ▸ List.forall₂_same.mpr fun step _ => .refl step
  exact ⟨z, ⟨hz, hequal⟩, fun y ⟨hy, hychain⟩ => h.eq_of_groups_equal hs hy hz hychain hequal⟩

end Tree.Settled

theorem Change.exists_placing {config : Config} {filter : Option RowFilter} {change : Change}
    {batch : Batch} (hprepare : change.prepare config filter = .ok batch) {id : UInt64}
    {addition : Addition} (hid : change.additions[id]? = some addition)
    (haccept : filter.all (· ((change.rowOf id addition).filled config.columns)) = true)
    (T : Table) : ∃ placing, batch.table T ⟨change.origin, id⟩ = some placing ∧
      placing.paths = Batch.categoryPaths config
        ((change.rowOf id addition).filled config.columns).values := by
  have hvalues := Batch.computeValues_of_passes (passes_of_prepare hprepare hid)
  rw [Row.filled_eq] at haccept
  generalize ((change.rowOf id addition).filled config.columns).values = values at *
  have hplacing : addition.placing? config filter ⟨change.origin, id⟩ =
      some ⟨addition.unid, values, Batch.documentSlots config values,
        Batch.categoryPaths config values⟩ :=
    Addition.placing?_eq_some.mpr ⟨values, hvalues, haccept, rfl⟩
  have hmem : id ∈ change.additions := by
    rw [Std.ExtTreeMap.mem_iff_isSome_getElem?, hid]
    rfl
  have hmentions : change.mentions ⟨change.origin, id⟩ = true := by
    simp [mentions, Std.ExtTreeMap.contains_iff_mem.mpr hmem]
  have hrow : change.row? config filter ⟨change.origin, id⟩ = some addition := by
    rw [row?, hid, Option.filter_some, hplacing]
    rfl
  rw [table_eq hprepare, if_pos hmentions, hrow, Option.bind_some, hplacing]
  exact ⟨_, rfl, rfl⟩

namespace Index

variable {name : String} {config : Config} {filter : Option RowFilter} {x y : Index}

/-- After a change that succeeds, the document of a row that the filter lets through stands at
the end of a chain of its scalars wherever it stands, and once at the end of each chain of
those that count. If the zeros do not meet in a column, all do. -/
theorem fans_out (hbuild : build name config filter = .ok x) (operations : List Operation)
    {change : Change} {stats : Stats}
    (happly : (x.run operations).apply change = .ok (y, stats)) {id : UInt64}
    {addition : Addition} (hid : change.additions[id]? = some addition) :
    let row := (change.rowOf id addition).filled config.columns
    let placements := y.tree.placementsOf ⟨change.origin, id⟩
    let stands := fun chain z => z ∈ placements ∧
      List.Forall₂ CategoryStep.Equal (y.tree.groups z) chain
    filter.all (· row) = true →
      (∀ z ∈ placements, config.Chain Counts row.values (y.tree.groups z)) ∧
      (∀ chain, config.Chain Counts row.values chain → ∃! z, stands chain z) ∧
      (∀ z ∈ placements, config.Chain Listed row.values (y.tree.groups z)) ∧
      ((∀ column ∈ config.columns, column.isCategory = true →
          ¬BothZeros (row.values.getD column.item .null).scalars) →
        ∀ chain, config.Chain Listed row.values chain → ∃! z, stands chain z) := by
  intro row placements stands haccept
  obtain ⟨T, hT⟩ := (maintains_build hbuild).run operations
  obtain ⟨batch, hprepare, hy⟩ := hT.apply happly
  obtain ⟨hconfig, hfilter⟩ := config_run x operations
  rw [hconfig, hfilter, (build_eq_ok hbuild).2] at hprepare
  obtain ⟨placing, hs, hpaths⟩ := Change.exists_placing hprepare hid haccept T
  have hchain : ∀ {chain}, config.Chain Counts row.values chain → ∃! z, stands chain z :=
    fun hchain => hy.settled.existsUnique_of_mem_paths hs
      (hpaths ▸ Batch.mem_categoryPaths_iff.mpr hchain)
  have hgroups : ∀ z ∈ placements, config.Chain Counts row.values (y.tree.groups z) :=
    fun z hz => Batch.mem_categoryPaths_iff.mp (hpaths ▸ hy.settled.groups_mem_paths hs hz)
  refine ⟨hgroups, fun chain => hchain, fun z hz => ?_, fun hzeros chain hlisted => hchain ?_⟩
  · exact (hgroups z hz).mono fun _ _ _ hv => hv.listed
  · refine hlisted.mono fun c hc v hv => hv.counts ?_
    obtain ⟨hmem, hcat⟩ := List.mem_filter.mp hc
    exact hzeros c.1 (List.fst_mem_of_mem_zipIdx hmem) hcat

/-- A row with groups. -/
def groupedBy (groups : List Scalar) : Addition :=
  ⟨"unid", (∅ : ColumnValues).insert "group" (.list groups)⟩

/-- The change that adds it. -/
def listing (groups : List Scalar) : Change := (Change.empty "desk").add 1 (groupedBy groups)

theorem scalars_groupedBy (groups : List Scalar) :
    ((groupedBy groups).values.getD "group" .null).scalars = groups := by
  rw [groupedBy, Std.ExtTreeMap.getD_insert_self]
  rfl

theorem chain_listing {groups : List Scalar} {v : Scalar} {values : List (Option Scalar)}
    (hv : v ∈ groups) (hvalues : Expands '\\' v values) :
    grouped.config.Chain Listed
      (((listing groups).rowOf 1 (groupedBy groups)).filled grouped.config.columns).values
      (values.map (⟨0, ·, false⟩)) := by
  have hchosen : Chosen Listed '\\' ((groupedBy groups).values.getD "group" .null).scalars values :=
    .scalar (scalars_groupedBy groups ▸ hv) hvalues
  have hchain : Chains Listed '\\' (groupedBy groups).values
      [(⟨"Group", "group", true, some .ascending, none, none⟩, 0)]
      (values.map (⟨0, ·, false⟩) ++ []) := .column hchosen .nil
  rw [List.append_nil] at hchain
  exact hchain

/-- Two spellings of one chain, and a text of separators alone. -/
theorem fans_out_nested_groups :
    let change := listing [.text "\\a\\\\b", .text "\\", .text "a\\b"]
    ∃ y stats, build "grouped" grouped.config none = .ok grouped ∧
      grouped.apply change = .ok (y, stats) ∧
      (y.tree.placementsOf ⟨"desk", 1⟩).map y.tree.groups =
        [[⟨0, some (.text "a"), false⟩, ⟨0, some (.text "b"), false⟩], [⟨0, none, false⟩]] ∧
      ∃! z, z ∈ y.tree.placementsOf ⟨"desk", 1⟩ ∧
        List.Forall₂ CategoryStep.Equal (y.tree.groups z) [⟨0, none, false⟩] := by
  intro change
  obtain ⟨stats, happly⟩ := exists_apply_after
    (show (grouped.apply change).toOption.isSome = true by decide +kernel)
  have hid : change.additions[(1 : UInt64)]? =
      some (groupedBy [.text "\\a\\\\b", .text "\\", .text "a\\b"]) :=
    Std.ExtTreeMap.getElem?_insert_self
  obtain ⟨-, -, -, hlisted⟩ := fans_out build_grouped [] happly hid rfl
  have hzeros : ∀ column ∈ grouped.config.columns, column.isCategory = true → ¬BothZeros
      ((groupedBy [.text "\\a\\\\b", .text "\\", .text "a\\b"]).values.getD column.item
        .null).scalars := by
    refine List.forall_mem_singleton.mpr fun _ hboth => ?_
    rw [scalars_groupedBy] at hboth
    exact absurd hboth.1 (by decide)
  exact ⟨_, stats, build_grouped, happly, by decide +kernel, hlisted hzeros _
    (chain_listing (v := .text "\\") (by decide) (.blank (by decide)))⟩

/-- A row with both zeros is not filed under the second. -/
theorem zeros_meet :
    let groups : List Scalar := [.number .zero, .number .negativeZero]
    let chain : CategoryPath := [⟨0, some (.number .negativeZero), false⟩]
    ∃ y stats, grouped.apply (listing groups) = .ok (y, stats) ∧
      grouped.config.Chain Listed
        (((listing groups).rowOf 1 (groupedBy groups)).filled grouped.config.columns).values chain ∧
      ∀ z ∈ y.tree.placementsOf ⟨"desk", 1⟩,
        ¬List.Forall₂ CategoryStep.Equal (y.tree.groups z) chain := by
  intro groups chain
  obtain ⟨stats, happly⟩ := exists_apply_after
    (show (grouped.apply (listing groups)).toOption.isSome = true by decide +kernel)
  let t := (grouped.after (.change (listing groups))).tree
  have hgroups : (t.placementsOf ⟨"desk", 1⟩).map t.groups =
      [[⟨0, some (.number .zero), false⟩]] := by decide +kernel
  refine ⟨_, stats, happly, chain_listing (List.mem_cons_of_mem _ List.mem_cons_self) (.number _),
    fun z hz hequal => ?_⟩
  have hz := List.mem_map_of_mem (f := t.groups) hz
  rw [hgroups] at hz
  rw [List.mem_singleton.mp hz] at hequal
  have hvalue := (CategoryStep.equal_iff.mp (List.forall₂_cons.mp hequal).1).2
  exact absurd hvalue (by decide)

end Index

end CategorizedIndex
