import CategorizedIndex.Proofs.Table

/-! # Preparing changes

A change is prepared when its origin and ids are allowed and every row is. The rows of
the batch are those of the change in order; the paths of a row are never none, and their
steps are those that the configuration declares.
-/
namespace CategorizedIndex

theorem Except.bind_eq_ok {ε α β : Type} {x : Except ε α} {f : α → Except ε β} {b : β} :
    x.bind f = .ok b ↔ ∃ a, x = .ok a ∧ f a = .ok b := by
  cases x with
  | error e => exact ⟨fun h => (nomatch h), fun ⟨_, h, _⟩ => (nomatch h)⟩
  | ok a => exact ⟨fun h => ⟨a, rfl, h⟩, fun ⟨_, ha, h⟩ => Except.ok.inj ha ▸ h⟩

theorem Except.forM_eq_ok {ε α : Type} {l : List α} {f : α → Except ε Unit} {u : Unit} :
    l.forM f = .ok u ↔ ∀ a ∈ l, f a = .ok () := by
  induction l with
  | nil => exact ⟨fun _ _ h => absurd h List.not_mem_nil, fun _ => rfl⟩
  | cons a rest ih =>
    have hcons : (a :: rest).forM f = (f a).bind fun _ => rest.forM f := rfl
    rw [hcons, bind_eq_ok, List.forall_mem_cons, ← ih]
    exact ⟨fun ⟨_, ha, h⟩ => ⟨ha, h⟩, fun ⟨ha, h⟩ => ⟨(), ha, h⟩⟩

theorem Except.mapM_cons_eq {ε α β : Type} (f : α → Except ε β) (a : α) (rest : List α) :
    (a :: rest).mapM f = (f a).bind fun b => (rest.mapM f).bind fun bs => .ok (b :: bs) := by
  rw [List.mapM_cons]
  rfl

theorem Except.mapM_eq_ok {ε α β : Type} {l : List α} {f : α → Except ε β} {bs : List β} :
    l.mapM f = .ok bs ↔ List.Forall₂ (fun a b => f a = .ok b) l bs := by
  induction l generalizing bs with
  | nil =>
    rw [List.mapM_nil, List.forall₂_nil_left_iff]
    exact ⟨fun h => (Except.ok.inj h).symm, fun h => h ▸ rfl⟩
  | cons a rest ih =>
    rw [mapM_cons_eq, bind_eq_ok, List.forall₂_cons_left_iff]
    constructor
    · rintro ⟨b, hb, h⟩
      obtain ⟨bs', hbs, heq⟩ := bind_eq_ok.mp h
      exact ⟨b, bs', hb, ih.mp hbs, (Except.ok.inj heq).symm⟩
    · rintro ⟨b, bs', hb, hbs, rfl⟩
      exact ⟨b, hb, bind_eq_ok.mpr ⟨bs', ih.mpr hbs, rfl⟩⟩

namespace Batch

variable {config : Config} {accept : Option RowFilter}

/-- A value that came from segments is no empty text. -/
theorem filter_of_mem_segments {separator : Char} {v : Scalar} {value : Option Scalar}
    (h : value ∈ segments separator v) : value.filter (!·.isEmptyText) = value := by
  cases v with
  | text s =>
    rw [segments] at h
    split at h
    · rw [List.mem_singleton.mp h]
      rfl
    · obtain ⟨part, hpart, rfl⟩ := List.mem_map.mp h
      have hne : part ≠ [] := by simpa using (List.mem_filter.mp hpart).2
      have hstr : String.ofList part ≠ "" := fun heq => hne (String.ofList_inj.mp heq)
      simp [Scalar.isEmptyText, hstr]
  | number x =>
    rw [List.mem_singleton.mp h]
    rfl
  | timestamp t =>
    rw [List.mem_singleton.mp h]
    rfl

theorem mem_foldl_addPath {paths known : List CategoryPath} {path : CategoryPath}
    (h : path ∈ paths.foldl addPath known) : path ∈ known ∨ path ∈ paths := by
  induction paths generalizing known with
  | nil => exact Or.inl h
  | cons p rest ih =>
    rcases ih h with h | h
    · unfold addPath at h
      split at h
      · exact Or.inl h
      · rcases List.mem_append.mp h with h | h
        · exact Or.inl h
        · exact Or.inr (List.mem_singleton.mp h ▸ List.mem_cons_self)
    · exact Or.inr (List.mem_cons_of_mem _ h)

theorem foldl_addPath_ne_nil {paths known : List CategoryPath} (h : known ≠ [] ∨ paths ≠ []) :
    paths.foldl addPath known ≠ [] := by
  induction paths generalizing known with
  | nil => exact h.resolve_right (fun h => h rfl)
  | cons p rest ih =>
    refine ih (Or.inl ?_)
    unfold addPath
    split
    · next hany =>
      rintro rfl
      cases hany
    · exact List.append_ne_nil_of_right_ne_nil _ (List.cons_ne_nil _ _)

theorem alternatives_ne_nil (separator : Char) (index : Nat) (column : Column)
    (values : ColumnValues) : alternatives separator index column values ≠ [] := by
  unfold alternatives
  split
  · exact List.cons_ne_nil _ _
  · next hnil =>
    exact foldl_addPath_ne_nil (Or.inr fun h => hnil (List.map_eq_nil_iff.mp h))

theorem fits_of_mem_alternatives {separator : Char} {index : Nat} {column : Column}
    (hcolumn : config.columns[index]? = some column) (hcat : column.isCategory = true)
    {values : ColumnValues} {path : CategoryPath}
    (hpath : path ∈ alternatives separator index column values) :
    ∀ step ∈ path, step.Fits config := by
  unfold alternatives at hpath
  split at hpath
  · rw [List.mem_singleton.mp hpath]
    intro step hstep
    rw [List.mem_singleton.mp hstep]
    exact ⟨⟨column, hcolumn, hcat, rfl⟩, rfl⟩
  · rcases mem_foldl_addPath hpath with hpath | hpath
    · exact absurd hpath List.not_mem_nil
    · obtain ⟨v, -, rfl⟩ := List.mem_map.mp hpath
      intro step hstep
      obtain ⟨value, hvalue, rfl⟩ := List.mem_map.mp hstep
      exact ⟨⟨column, hcolumn, hcat, rfl⟩, filter_of_mem_segments hvalue⟩

/-- There is a path for every row, and its steps are declared. -/
theorem categoryPaths_fit (config : Config) (values : ColumnValues) :
    categoryPaths config values ≠ [] ∧
      ∀ path ∈ categoryPaths config values, ∀ step ∈ path, step.Fits config := by
  have hcolumns : ∀ c ∈ config.columns.zipIdx.filter (·.1.isCategory),
      config.columns[c.2]? = some c.1 ∧ c.1.isCategory = true := by
    intro c hc
    obtain ⟨hmem, hcat⟩ := List.mem_filter.mp hc
    exact ⟨List.mk_mem_zipIdx_iff_getElem?.mp hmem, hcat⟩
  have hstart : ([[]] : List CategoryPath) ≠ [] ∧
      ∀ path ∈ ([[]] : List CategoryPath), ∀ step ∈ path, step.Fits config := by
    refine ⟨List.cons_ne_nil _ _, fun path hpath step hstep => ?_⟩
    rw [List.mem_singleton.mp hpath] at hstep
    cases hstep
  unfold categoryPaths
  generalize config.columns.zipIdx.filter (·.1.isCategory) = columns at hcolumns
  generalize ([[]] : List CategoryPath) = paths at hstart
  induction columns generalizing paths with
  | nil => exact hstart
  | cons c rest ih =>
    obtain ⟨hc, hcat⟩ := hcolumns c List.mem_cons_self
    have halt := alternatives_ne_nil config.separator c.2 c.1 values
    refine ih (fun d hd => hcolumns d (List.mem_cons_of_mem _ hd)) _ ⟨?_, ?_⟩
    · obtain ⟨path, hpath⟩ := List.exists_mem_of_ne_nil _ hstart.1
      obtain ⟨alternative, halternative⟩ := List.exists_mem_of_ne_nil _ halt
      refine List.ne_nil_of_mem (a := path ++ alternative) (List.mem_flatMap.mpr ⟨path, hpath, ?_⟩)
      exact List.mem_map_of_mem halternative
    · intro path hpath step hstep
      obtain ⟨start, hstart', hpath⟩ := List.mem_flatMap.mp hpath
      obtain ⟨alternative, halternative, rfl⟩ := List.mem_map.mp hpath
      rcases List.mem_append.mp hstep with hstep | hstep
      · exact hstart.2 start hstart' step hstep
      · exact fits_of_mem_alternatives hc hcat halternative step hstep

/-- The placing of a row whose values are computed, if the filter lets it through. -/
def placing? (config : Config) (accept : Option RowFilter) (row : Row) : Option Placing :=
  if accept.all (· row) then
    some ⟨row.unid, row.values, documentSlots config row.values, categoryPaths config row.values⟩
  else none

theorem placing?_fits {row : Row} {p : Placing} (h : placing? config accept row = some p) :
    p.Fits config := by
  unfold placing? at h
  split at h
  · obtain rfl := Option.some.inj h
    have hpaths := categoryPaths_fit config row.values
    exact ⟨rfl, hpaths.1, hpaths.2⟩
  · cases h

/-- A row is what its computed values make of it; it fails only by its value functions. -/
theorem prepareRow_eq (config : Config) (accept : Option RowFilter) (origin : String)
    (id : UInt64) (addition : Addition) :
    prepareRow config accept origin id addition =
      (computeValues config.columns ⟨⟨origin, id⟩, addition.unid, addition.values⟩).bind
        fun values =>
          .ok ⟨⟨origin, id⟩, placing? config accept ⟨⟨origin, id⟩, addition.unid, values⟩⟩ := by
  rw [prepareRow]
  cases computeValues config.columns ⟨⟨origin, id⟩, addition.unid, addition.values⟩ with
  | error e => rfl
  | ok values =>
    cases accept with
    | none => rfl
    | some f =>
      simp only [Bind.bind, Except.bind, placing?, Option.all_some]
      split <;> rfl

theorem prepareRow_eq_ok_iff {origin : String} {id : UInt64} {addition : Addition}
    {row : PreparedRow} :
    prepareRow config accept origin id addition = .ok row ↔
      ∃ values, computeValues config.columns ⟨⟨origin, id⟩, addition.unid, addition.values⟩ =
          .ok values ∧
        row = ⟨⟨origin, id⟩, placing? config accept ⟨⟨origin, id⟩, addition.unid, values⟩⟩ := by
  simp only [prepareRow_eq, Except.bind_eq_ok, Except.ok.injEq, eq_comm (a := row)]

theorem prepareRow_fits {origin : String} {id : UInt64} {addition : Addition}
    {row : PreparedRow} (h : prepareRow config accept origin id addition = .ok row) :
    row.scopedId = ⟨origin, id⟩ ∧ ∀ p, row.placing = some p → p.Fits config := by
  obtain ⟨values, -, rfl⟩ := prepareRow_eq_ok_iff.mp h
  exact ⟨rfl, fun p hp => placing?_fits hp⟩

theorem checkId_eq_ok {origin : String} {id : UInt64} :
    checkId origin id = .ok () ↔ (ScopedId.mk origin id).isCategory = false := by
  unfold checkId
  cases (ScopedId.mk origin id).isCategory <;> simp

end Batch

namespace Change

variable {config : Config} {accept : Option RowFilter} {change : Change} {batch : Batch}

theorem prepare_eq (change : Change) (config : Config) (accept : Option RowFilter) :
    change.prepare config accept =
      (Batch.checkOrigin change.origin).bind fun _ =>
        ((change.removals.toList ++ change.additions.keys).forM
          (Batch.checkId change.origin)).bind fun _ =>
        (change.additions.toList.mapM fun a =>
          Batch.prepareRow config accept change.origin a.1 a.2).bind fun rows =>
        .ok ⟨change.removals.toList.map (ScopedId.mk change.origin), rows⟩ := rfl

/-- A change is prepared exactly if its origin, its ids and its rows are in order. -/
theorem prepare_eq_ok_iff :
    change.prepare config accept = .ok batch ↔
      Batch.checkOrigin change.origin = .ok () ∧
      (∀ id ∈ change.removals.toList ++ change.additions.keys,
        (ScopedId.mk change.origin id).isCategory = false) ∧
      List.Forall₂ (fun a row => Batch.prepareRow config accept change.origin a.1 a.2 = .ok row)
        change.additions.toList batch.rows ∧
      batch.removals = change.removals.toList.map (ScopedId.mk change.origin) := by
  simp only [prepare_eq, Except.bind_eq_ok, Except.forM_eq_ok, Except.mapM_eq_ok,
    Batch.checkId_eq_ok]
  constructor
  · rintro ⟨_, horigin, _, hids, rows, hrows, heq⟩
    obtain rfl := Except.ok.inj heq
    exact ⟨horigin, hids, hrows, rfl⟩
  · rintro ⟨horigin, hids, hrows, hremovals⟩
    refine ⟨(), horigin, (), hids, batch.rows, hrows, ?_⟩
    rw [← hremovals]

theorem ids_of_prepared {origin : String} {additions : List (UInt64 × Addition)}
    {rows : List PreparedRow}
    (h : List.Forall₂ (fun a row => Batch.prepareRow config accept origin a.1 a.2 = .ok row)
      additions rows) :
    rows.map (·.scopedId) = additions.map fun a => ⟨origin, a.1⟩ := by
  induction h with
  | nil => rfl
  | cons hrow _ ih => rw [List.map_cons, List.map_cons, ih, (Batch.prepareRow_fits hrow).1]

theorem exists_of_prepared {origin : String} {additions : List (UInt64 × Addition)}
    {rows : List PreparedRow}
    (h : List.Forall₂ (fun a row => Batch.prepareRow config accept origin a.1 a.2 = .ok row)
      additions rows) {row : PreparedRow} (hrow : row ∈ rows) :
    ∃ a ∈ additions, Batch.prepareRow config accept origin a.1 a.2 = .ok row := by
  induction h with
  | nil => cases hrow
  | cons h _ ih =>
    rcases List.mem_cons.mp hrow with rfl | hrow
    · exact ⟨_, List.mem_cons_self, h⟩
    · obtain ⟨a, ha, hok⟩ := ih hrow
      exact ⟨a, List.mem_cons_of_mem _ ha, hok⟩

theorem prepare_ids (h : change.prepare config accept = .ok batch) :
    batch.rows.map (·.scopedId) = change.additions.keys.map (ScopedId.mk change.origin) := by
  obtain ⟨-, -, hrows, -⟩ := prepare_eq_ok_iff.mp h
  rw [ids_of_prepared hrows, ← Std.ExtTreeMap.map_fst_toList_eq_keys, List.map_map]
  rfl

theorem prepare_nodup (h : change.prepare config accept = .ok batch) :
    (batch.rows.map (·.scopedId)).Nodup := by
  rw [prepare_ids h]
  exact Std.ExtTreeMap.nodup_keys.map fun a b hab => (ScopedId.mk.inj hab).2

theorem prepare_fits (h : change.prepare config accept = .ok batch) : batch.Fits config := by
  obtain ⟨-, hids, hrows, hremovals⟩ := prepare_eq_ok_iff.mp h
  constructor
  · intro s hs
    rw [hremovals] at hs
    obtain ⟨id, hid, rfl⟩ := List.mem_map.mp hs
    exact hids id (List.mem_append_left _ hid)
  · intro row hrow
    have hid : row.scopedId ∈ batch.rows.map (·.scopedId) := List.mem_map_of_mem hrow
    rw [prepare_ids h] at hid
    obtain ⟨id, hid, heq⟩ := List.mem_map.mp hid
    refine ⟨heq ▸ hids id (List.mem_append_right _ hid), ?_⟩
    obtain ⟨a, -, ha⟩ := exists_of_prepared hrows hrow
    exact (Batch.prepareRow_fits ha).2

end Change

end CategorizedIndex
