import CategorizedIndex.Config.Stored
import CategorizedIndex.Proofs.Yaml.Instance

/-! # Stored configurations

A valid configuration that is stored is loaded as it was, whatever its texts hold. Only the
value functions are lost, and without them it is still valid. The library for YAML is any that
loses nothing of records with the names that occur here.
-/
namespace CategorizedIndex
open Yaml

variable {lib : Library} {n : lib.Node}

theorem Expansion.ofNode?_of_shows {e : Expansion} (h : lib.Shows (.word e.name) n) :
    ofNode? lib n = some e :=
  h.oneOf? (by cases e <;> rfl)

theorem Direction.ofNode?_of_shows {d : Direction} (h : lib.Shows (.word d.name) n) :
    ofNode? lib n = some d :=
  h.oneOf? (by cases d <;> rfl)

namespace Column

theorem distinct_fields (c : Column) : (c.fields.map Prod.fst).Nodup := by
  cases hdirection : c.direction <;> cases hformula : c.formula <;>
    simp [fields, hdirection, hformula]

/-- Of a column everything but its function is read. -/
theorem ofNode?_of_shows {c : Column} (h : lib.Shows (.record c.fields) n) :
    ofNode? lib n = some c.withoutFunction := by
  cases h with
  | @record _ _ ms hn hnames hds =>
    have hfields : lib.ShowsFields c.fields ms := ⟨c.distinct_fields, hnames, hds⟩
    have htitle : required? ms "title" lib.text? = some c.title :=
      hfields.required? (by simp [fields]) fun _ hm => hm.text?
    have hitem : required? ms "item_name" lib.text? = some c.item :=
      hfields.required? (by simp [fields]) fun _ hm => hm.text?
    have hcategory : withDefault? ms "category" lib.bool? false = some c.isCategory :=
      hfields.withDefault?_of_mem (by simp [fields]) fun _ hm => hm.bool?
    have hsort : withDefault? ms "sort" (lib.optionally? (Direction.ofNode? lib)) none =
        some c.direction := by
      cases hdirection : c.direction with
      | none => exact hfields.withDefault?_of_notMem (by simp [fields, hdirection])
      | some direction =>
        exact hfields.withDefault?_of_mem (by simp [fields, hdirection]) fun _ hm =>
          hm.optionally? fun _ => Direction.ofNode?_of_shows
    have hformula : withDefault? ms "formula" (lib.optionally? lib.text?) none =
        some c.formula := by
      cases hformula : c.formula with
      | none => exact hfields.withDefault?_of_notMem (by simp [fields, hformula])
      | some formula =>
        exact hfields.withDefault?_of_mem (by simp [fields, hformula]) fun _ hm =>
          hm.optionally? fun _ hm => hm.text?
    simp [ofNode?, hn, htitle, hitem, hcategory, hsort, hformula, withoutFunction]

end Column

namespace Config

theorem columnsOfNode?_of_shows {columns : List Column}
    (h : lib.Shows (.list (columns.map fun column => .record column.fields)) n) :
    columnsOfNode? lib n = some (columns.map (·.withoutFunction)) := by
  cases h with
  | list hn hds =>
    rw [List.forall₂_map_left_iff] at hds
    rw [columnsOfNode?, hn, Option.bind_eq_bind, Option.bind_some, Text.mapM_eq_some,
      List.forall₂_map_right_iff]
    exact (hds.imp fun _ _ => Column.ofNode?_of_shows).flip

theorem ofNode?_of_shows {c : Config} (h : lib.Shows (.record c.fields) n) :
    ofNode? lib n = some c.withoutFunctions := by
  cases h with
  | @record _ _ ms hn hnames hds =>
    have hfields : lib.ShowsFields c.fields ms := ⟨by simp [fields], hnames, hds⟩
    have hseparator : withDefault? ms "path_separator" lib.char? standard.separator =
        some c.separator :=
      hfields.withDefault?_of_mem (by simp [fields]) fun _ hm => hm.char?
    have hexpansion : withDefault? ms "default_expansion" (Expansion.ofNode? lib)
        standard.expansion = some c.expansion :=
      hfields.withDefault?_of_mem (by simp [fields]) fun _ => Expansion.ofNode?_of_shows
    have hstrict : withDefault? ms "strict_value_types" lib.bool? standard.strict =
        some c.strict :=
      hfields.withDefault?_of_mem (by simp [fields]) fun _ hm => hm.bool?
    have hcolumns : withDefault? ms "columns" (columnsOfNode? lib) standard.columns =
        some (c.columns.map (·.withoutFunction)) :=
      hfields.withDefault?_of_mem (by simp [fields]) fun _ => columnsOfNode?_of_shows
    simp [ofNode?, hn, hseparator, hexpansion, hstrict, hcolumns, withoutFunctions]

/-! ## Validation -/

theorem columnFault?_eq_none_iff {declared : List String} {c : Column} :
    columnFault? declared c = none ↔ c.item.toList.all Text.isBlank = false ∧
      c.item ∉ declared ∧ (c.isCategory = true → c.isSorted = true) ∧
      (c.formula.isSome = true → c.compute.isSome = false) := by
  unfold columnFault?
  cases c.item.toList.all Text.isBlank <;> cases hdeclared : declared.contains c.item <;>
    cases c.isCategory <;> cases c.isSorted <;> cases c.formula.isSome <;>
    cases c.compute.isSome <;> simp_all

theorem columnsFault?_withoutFunction {declared : List String} {columns : List Column}
    (h : columnsFault? declared columns = none) :
    columnsFault? declared (columns.map (·.withoutFunction)) = none := by
  induction columns generalizing declared with
  | nil => rfl
  | cons c rest ih =>
    rw [columnsFault?] at h
    cases hc : columnFault? declared c with
    | some e =>
      rw [hc] at h
      cases h
    | none =>
      rw [hc] at h
      obtain ⟨hitem, hdeclared, hsorted, -⟩ := columnFault?_eq_none_iff.mp hc
      have hkept : columnFault? declared c.withoutFunction = none :=
        columnFault?_eq_none_iff.mpr ⟨hitem, hdeclared, hsorted, fun _ => rfl⟩
      rw [List.map_cons, columnsFault?, hkept]
      exact ih h

theorem validate_withoutFunctions {c : Config} (h : c.validate = .ok ()) :
    c.withoutFunctions.validate = .ok () := by
  rw [validate_eq_ok_iff, fault?] at h ⊢
  by_cases hseparator : separatorAllowed c.separator = true
  · rw [if_pos hseparator] at h
    rw [if_pos (show separatorAllowed c.withoutFunctions.separator = true from hseparator)]
    exact columnsFault?_withoutFunction h
  · rw [if_neg hseparator] at h
    cases h

theorem separator_ne_break {c : Config} (h : c.validate = .ok ()) : c.separator ≠ '\n' := by
  intro hbreak
  have hblank : Text.isBlank '\n' = true := by decide
  rw [validate_eq_ok_iff, fault?, hbreak] at h
  simp [separatorAllowed, hblank] at h

end Config

/-! ## The data of a configuration -/

/-- The names of the fields of configurations and of their columns. -/
def Config.fieldNames : List String :=
  ["path_separator", "default_expansion", "strict_value_types", "columns", "title", "item_name",
    "category", "sort", "formula"]

theorem Config.isName_of_mem_fieldNames : ∀ name ∈ fieldNames, Written.IsName name := by
  intro name h
  simp only [fieldNames, List.mem_cons, List.not_mem_nil, or_false] at h
  rcases h with rfl | rfl | rfl | rfl | rfl | rfl | rfl | rfl | rfl
  all_goals exact ⟨by decide, by simp, by decide⟩

theorem Column.fields_ne_nil (c : Column) : c.fields ≠ [] := by simp [fields]

theorem Column.legible_of_mem_fields {c : Column} {f : String × Data} (hf : f ∈ c.fields) :
    f.1 ∈ Config.fieldNames ∧ f.2.Legible Config.fieldNames := by
  simp only [fields, List.mem_append, List.mem_cons, List.not_mem_nil, or_false,
    Option.mem_toList, Option.map_eq_some_iff] at hf
  rcases hf with ((rfl | rfl | rfl) | ⟨_, _, rfl⟩) | ⟨_, _, rfl⟩
  · exact ⟨by simp [Config.fieldNames], .text c.title⟩
  · exact ⟨by simp [Config.fieldNames], .text c.item⟩
  · exact ⟨by simp [Config.fieldNames], .bool c.isCategory⟩
  · exact ⟨by simp [Config.fieldNames], .present (.word _)⟩
  · exact ⟨by simp [Config.fieldNames], .present (.text _)⟩

namespace Config

theorem legible_columns (columns : List Column) :
    Data.Legible fieldNames (.list (columns.map fun column => .record column.fields)) := by
  have hrecords : columns.map (fun column => Data.record column.fields) =
      (columns.map (·.fields)).map .record := by simp
  rw [hrecords]
  refine .list ?_ ?_ ?_
  all_goals
    intro r hr
    obtain ⟨c, -, rfl⟩ := List.mem_map.mp hr
  · exact c.fields_ne_nil
  · exact fun f hf => (Column.legible_of_mem_fields hf).1
  · exact fun f hf => (Column.legible_of_mem_fields hf).2

theorem legible_of_mem_fields {c : Config} (hc : c.separator ≠ '\n') {f : String × Data}
    (hf : f ∈ c.fields) : f.1 ∈ fieldNames ∧ f.2.Legible fieldNames := by
  simp only [fields, List.mem_cons, List.not_mem_nil, or_false] at hf
  rcases hf with rfl | rfl | rfl | rfl
  · exact ⟨by simp [fieldNames], .char hc⟩
  · exact ⟨by simp [fieldNames], .word _⟩
  · exact ⟨by simp [fieldNames], .bool c.strict⟩
  · exact ⟨by simp [fieldNames], legible_columns c.columns⟩

/-- A configuration is loaded as it was stored, without its functions, and is still valid. -/
theorem load_store (lib : Library) (hlib : lib.Lossless fieldNames) (c : Config)
    (hvalid : c.validate = .ok ()) :
    load lib (c.store lib) = .ok c.withoutFunctions ∧ c.withoutFunctions.validate = .ok () := by
  have hkept := validate_withoutFunctions hvalid
  have hlegible := fun f (hf : f ∈ c.fields) =>
    legible_of_mem_fields (separator_ne_break hvalid) hf
  obtain ⟨n, hread, hn⟩ := hlib c.fields (List.cons_ne_nil _ _) (fun f hf => (hlegible f hf).1)
    fun f hf => (hlegible f hf).2
  refine ⟨?_, hkept⟩
  rw [load, store, hread, Option.bind_some, ofNode?_of_shows hn]
  simp [hkept]

/-- Texts that look like something else, and a separator that only an escape can write. -/
def awkward : Config where
  separator := '\x07'
  expansion := .collapsed
  strict := false
  columns :=
    [ ⟨"null", "- : #", true, some .descending, some " 1e3\n\n", none⟩,
      ⟨"", "true", false, none, none, some fun _ => .error "none"⟩ ]

theorem load_store_awkward : library.Lossless fieldNames ∧ awkward.validate = .ok () ∧
    ofYaml awkward.toYaml = .ok awkward.withoutFunctions := by
  have hlib : library.Lossless fieldNames := lossless_library isName_of_mem_fieldNames
  have hvalid : awkward.validate = .ok () := by decide +kernel
  exact ⟨hlib, hvalid, (load_store library hlib awkward hvalid).1⟩

end Config

end CategorizedIndex
