import CategorizedIndex.Json.Instance
import CategorizedIndex.Proofs.Json.Lossless
import CategorizedIndex.Proofs.Json.Value

/-! # The library in use

The library that writes JSON without blanks and reads it by descent loses nothing, however deep
data is nested.
-/
namespace CategorizedIndex.Json

variable {d : Data} {depth : ℕ} {x : Number}

theorem itemsToJson_eq_map (items : List Data) : itemsToJson items = items.map Data.toJson := by
  induction items with
  | nil => rfl
  | cons item rest ih => simp [itemsToJson, ih]

theorem membersToJson_eq_map (entries : List (String × Data)) :
    membersToJson entries =
      entries.map fun (name, content) => (.ofString name, content.toJson) := by
  induction entries with
  | nil => rfl
  | cons entry rest ih => simp [membersToJson, ih]

theorem wordEntriesToJson_eq_map (entries : List (UInt64 × Data)) :
    wordEntriesToJson entries =
      entries.map fun (key, content) => (.ofString (toString key.toNat), content.toJson) := by
  induction entries with
  | nil => rfl
  | cons entry rest ih => simp [wordEntriesToJson, ih]

theorem toNumber?_ofNumber (hx : library.KeepsNumber x) : toNumber? (ofNumber x) = some x := by
  obtain ⟨hfinite, hkept⟩ := hx
  have hread := number?_toChars (JsonNumber.wellFormed_ofNumber x)
  simp only [library, ofNumeral?, numeral, String.toList_ofList, hread] at hkept
  simpa [ofNumber, hfinite, toNumber?] using hkept

theorem word?_ofNat (w : UInt64) : word? (ofNat w.toNat) = some w := by
  have hroom : w.toNat ≤ JsonNumber.maxWord := Nat.le_of_lt_succ w.toNat_lt
  simp [word?, ofNat, JsonNumber.toNat?_ofNat hroom]

/-- The key of a word has its digits between the quotes. -/
theorem wordOfKey?_ofString (w : UInt64) :
    wordOfKey? (.ofString (toString w.toNat)) = some w := by
  have hroom : w.toNat ≤ JsonNumber.maxWord := Nat.le_of_lt_succ w.toNat_lt
  have hraw : (JsonText.ofString (toString w.toNat)).raw = (JsonNumber.ofNat w.toNat).toChars := by
    rw [Nat.toString_eq_ofList_toDigits]
    refine (JsonText.raw_ofString_digits (Text.isDigits_decimal _)).trans ?_
    simp [JsonNumber.toChars, JsonNumber.ofNat]
  have hread := number?_toChars (JsonNumber.wellFormed_ofNat w.toNat)
  rw [wordOfKey?, hraw, hread]
  simp [JsonNumber.toNat?_ofNat hroom]

theorem legible_members {κ : Type} (name : κ → String) {entries : List (κ × Data)}
    (h : ∀ e ∈ entries, e.2.toJson.Legible) :
    (object (entries.map fun (key, d) => (.ofString (name key), d.toJson))).Legible := by
  refine .object (fun m hm => ?_) fun m hm => ?_
  all_goals obtain ⟨e, he, rfl⟩ := List.mem_map.mp hm
  · exact ⟨name e.1, rfl⟩
  · exact h e he

theorem legible_toJson (h : library.Legible depth d) : d.toJson.Legible := by
  induction h with
  | text s => exact .text s
  | number hx =>
    rw [Data.toJson, ofNumber, if_pos hx.1]
    exact .number (JsonNumber.wellFormed_ofNumber _)
  | word w => exact .number (JsonNumber.wellFormed_ofNat _)
  | mark name => exact .text name
  | @variant _ name d _ ih =>
    have hone : ∀ e ∈ [(name, d)], e.2.toJson.Legible := by simpa using ih
    exact legible_members id hone
  | list _ ih =>
    rw [Data.toJson, itemsToJson_eq_map]
    refine .array fun j hj => ?_
    obtain ⟨d, hd, rfl⟩ := List.mem_map.mp hj
    exact ih d hd
  | record _ ih | map _ ih =>
    rw [Data.toJson, membersToJson_eq_map]
    exact legible_members id ih
  | wordMap _ ih =>
    rw [Data.toJson, wordEntriesToJson_eq_map]
    exact legible_members (fun w : UInt64 => toString w.toNat) ih

theorem entries?_membersToJson (entries : List (String × Data)) :
    entries? (object (membersToJson entries)) =
      some (entries.map fun (name, d) => (name, d.toJson)) := by
  simp [entries?, membersToJson_eq_map, Text.mapM_eq_some]

theorem wordEntries?_wordEntriesToJson (entries : List (UInt64 × Data)) :
    wordEntries? (object (wordEntriesToJson entries)) =
      some (entries.map fun (key, d) => (key, d.toJson)) := by
  rw [wordEntries?, wordEntriesToJson_eq_map, Text.mapM_eq_some, List.forall₂_map_left_iff,
    List.forall₂_map_right_iff, List.forall₂_same]
  intro e _
  simp only [wordOfKey?_ofString, Option.map_some]

theorem shows_toJson (h : library.Legible depth d) : library.Shows d d.toJson := by
  induction h with
  | text s => exact .text (JsonText.toString?_ofString s)
  | number hx => exact .number (toNumber?_ofNumber hx)
  | word w => exact .word (word?_ofNat w)
  | mark name => exact .mark (by simp [Data.toJson, library, variant?, ofString])
  | variant _ ih => exact .variant (by simp [Data.toJson, library, variant?]) ih
  | @list _ ds _ ih =>
    have hread : library.items? (Data.list ds).toJson = some (ds.map Data.toJson) := by
      simp [library, Data.toJson, items, itemsToJson_eq_map]
    exact .list hread (List.forall₂_map_right_iff.mpr (List.forall₂_same.mpr ih))
  | @record _ fields _ ih =>
    have hread : library.record? (Data.record fields).toJson =
        some (.named (fields.map fun (name, d) => (name, d.toJson))) := by
      simp [library, Data.toJson, record?, entries?_membersToJson]
    exact .record hread (by simp) (Fields.forall₂_snd_map Data.toJson ih)
  | @map _ entries _ ih =>
    have hread : library.entries? (Data.map entries).toJson =
        some (entries.map fun (name, d) => (name, d.toJson)) := by
      simp [library, Data.toJson, entries?_membersToJson]
    exact .map hread (by simp) (Fields.forall₂_snd_map Data.toJson ih)
  | @wordMap _ entries _ ih =>
    have hread : library.wordEntries? (Data.wordMap entries).toJson =
        some (entries.map fun (key, d) => (key, d.toJson)) := by
      simp [library, Data.toJson, wordEntries?_wordEntriesToJson]
    exact .wordMap hread (by simp) (Fields.forall₂_snd_map Data.toJson ih)

theorem lossless_library : library.Lossless := fun d hd =>
  ⟨d.toJson, ofText?_toText (legible_toJson hd), shows_toJson hd⟩

end CategorizedIndex.Json
