import CategorizedIndex.Proofs.Yaml.Decode
import CategorizedIndex.Proofs.Yaml.Lossless
import CategorizedIndex.Proofs.Yaml.Read
import CategorizedIndex.Yaml.Instance

/-! # The library in use

The library that writes YAML in blocks loses nothing, if the names of fields can stand without
quotes.
-/
namespace CategorizedIndex.Yaml

variable {names : List String} {d : Data} {fields : List (String × Data)}

theorem itemsToValue_eq_map (items : List Data) :
    itemsToValue items = items.map Data.toValue := by
  induction items with
  | nil => rfl
  | cons item rest ih => simp [itemsToValue, ih]

theorem fieldsToValue_eq_map (fields : List (String × Data)) :
    fieldsToValue fields = fields.map fun (name, d) => (name, d.toValue) := by
  induction fields with
  | nil => rfl
  | cons f rest ih => simp [fieldsToValue, ih]

theorem legible_toValue (hnames : ∀ name ∈ names, Written.IsName name) (h : d.Legible names) :
    d.toValue.Legible := by
  induction h with
  | text s | word s => exact Value.legible_ofString s
  | char hc => exact Value.legible_ofChar hc
  | bool b => exact Value.legible_ofBool b
  | present _ ih => exact ih
  | @list records hsome hfields _ ih =>
    have hrecords : itemsToValue (records.map .record) =
        (records.map fieldsToValue).map .mapping := by
      simp [itemsToValue_eq_map, Data.toValue]
    rw [Data.toValue, hrecords]
    refine .sequence ?_ ?_ ?_
    all_goals
      intro r hr
      obtain ⟨r, hmem, rfl⟩ := List.mem_map.mp hr
      rw [fieldsToValue_eq_map]
    · simpa using hsome r hmem
    all_goals
      intro e he
      obtain ⟨f, hf, rfl⟩ := List.mem_map.mp he
    · exact hnames _ (hfields r hmem f hf)
    · exact ih r hmem f hf

theorem optional?_toNode (root : Node) (h : d.Legible names) :
    Decode.optional? root d.toValue.toNode = some (some d.toValue.toNode) := by
  induction h with
  | text s | word s => exact Decode.optional?_ofString root s
  | char => exact Decode.optional?_ofChar root _
  | bool b => exact Decode.optional?_ofBool root b
  | present _ ih => exact ih
  | list => rfl

theorem shows_record {root : Node}
    (h : ∀ f ∈ fields, library.Shows f.2 ⟨root, f.2.toValue.toNode⟩) :
    library.Shows (.record fields) ⟨root, (Data.record fields).toValue.toNode⟩ := by
  have hread : library.fields? ⟨root, (Data.record fields).toValue.toNode⟩ =
      some (fields.map fun (name, d) => (name, ⟨root, d.toValue.toNode⟩)) := by
    simp [library, Data.toValue, fieldsToValue_eq_map]
  exact .record hread (by simp)
    (Fields.forall₂_snd_map (fun d : Data => Place.mk root d.toValue.toNode) h)

theorem shows_toNode (root : Node) (h : d.Legible names) :
    library.Shows d ⟨root, d.toValue.toNode⟩ := by
  induction h with
  | text s => exact .text (Decode.text?_ofString root s)
  | char => exact .char (Decode.char?_ofChar root _)
  | bool b => exact .bool (Decode.bool?_ofBool root b)
  | word s => exact .word (Decode.word?_ofString root s)
  | @present d hd ih =>
    have hread : library.optional? ⟨root, (Data.present d).toValue.toNode⟩ =
        some (some ⟨root, d.toValue.toNode⟩) := by
      simp [library, Data.toValue, optional?_toNode root hd]
    exact .present hread ih
  | @list records _ _ _ ih =>
    have hread : library.items? ⟨root, (Data.list (records.map .record)).toValue.toNode⟩ =
        some ((records.map Data.record).map fun d => ⟨root, d.toValue.toNode⟩) := by
      simp [library, Data.toValue, itemsToValue_eq_map]
    refine .list hread (List.forall₂_map_right_iff.mpr (List.forall₂_same.mpr fun d hd => ?_))
    obtain ⟨r, hr, rfl⟩ := List.mem_map.mp hd
    exact shows_record (ih r hr)

theorem lossless_library (hnames : ∀ name ∈ names, Written.IsName name) :
    library.Lossless names := by
  intro fields hsome hfields hds
  let root := (Data.record fields).toValue.toNode
  have hread : Node.ofText? (Data.record fields).toValue.toText = some root := by
    simp only [root, Data.toValue, fieldsToValue_eq_map]
    refine Value.ofText?_toText (by simpa using hsome) ?_ ?_
    all_goals
      intro e he
      obtain ⟨f, hf, rfl⟩ := List.mem_map.mp he
    · exact hnames _ (hfields f hf)
    · exact legible_toValue hnames (hds f hf)
  refine ⟨⟨root, root⟩, ?_, shows_record fun f hf => shows_toNode root (hds f hf)⟩
  simp [library, hread]

end CategorizedIndex.Yaml
