import CategorizedIndex.Proofs.Text.Blank
import CategorizedIndex.Yaml.Decode
import CategorizedIndex.Yaml.Value

/-! # Reading of written values

The node of a value that is to be written is read as what the value was made from. Quotes
tell texts from null and from truth values.
-/
namespace CategorizedIndex.Yaml

variable {s : String}

namespace Value

theorem itemNodes_eq_map (items : List Value) : itemNodes items = items.map toNode := by
  induction items with
  | nil => rfl
  | cons item rest ih => simp [itemNodes, ih]

theorem entryNodes_eq_map (entries : List (String × Value)) :
    entryNodes entries = entries.map fun (key, value) =>
      (.scalar none none (Written.keyStyle key) key, toNode value) := by
  induction entries with
  | nil => rfl
  | cons entry rest ih => simp [entryNodes, ih]

/-- What is written holds no references. -/
theorem resolve?_toNode (root : Node) (v : Value) : root.resolve? v.toNode = some v.toNode := by
  cases v <;> simp [toNode, Node.resolve?]

end Value

theorem Written.quoteStyle_ne_plain (s : List Char) : quoteStyle s ≠ .plain := by
  unfold quoteStyle
  split <;> simp

/-- A text without quotes means nothing but itself. -/
theorem Written.isText_of_plain (h : styleOf s = .plain) : Plain.isText s = true := by
  simp only [styleOf] at h
  split at h
  · split at h <;> cases h
  · split at h
    · next htext => exact (Bool.and_eq_true_iff.mp htext).1
    · exact absurd h (quoteStyle_ne_plain _)

namespace Decode

theorem isNullText_of_plain (h : Written.styleOf s = .plain) : isNullText s = false := by
  have htext := Written.isText_of_plain h
  simp only [Plain.isText, Bool.not_eq_true', Bool.or_eq_false_iff] at htext
  simp [isNullText, htext.1.1.1, htext.1.1.2]

@[simp]
theorem text?_ofString (root : Node) (s : String) :
    text? root (Value.ofString s).toNode = some s := by
  simp [text?, Value.ofString, Value.toNode, Node.resolve?]

@[simp]
theorem char?_ofChar (root : Node) (c : Char) : char? root (Value.ofChar c).toNode = some c := by
  simp [char?, text?, Value.ofChar, Value.toNode, Node.resolve?]

@[simp]
theorem bool?_ofBool (root : Node) (b : Bool) : bool? root (Value.ofBool b).toNode = some b := by
  cases b <;> simp [bool?, Value.ofBool, Value.toNode, Node.resolve?] <;> decide

@[simp]
theorem word?_ofString (root : Node) (s : String) :
    word? root (Value.ofString s).toNode = some s := by
  simp [word?, Value.ofString, Value.toNode, Node.resolve?]

/-- A text is never taken for something that is absent. -/
theorem optional?_ofString (root : Node) (s : String) :
    optional? root (Value.ofString s).toNode = some (some (Value.ofString s).toNode) := by
  rw [optional?, Value.resolve?_toNode, Value.ofString, Value.toNode]
  cases hstyle : Written.styleOf s with
  | plain => simp [isNullText_of_plain hstyle]
  | singleQuoted | doubleQuoted | literal | folded => rfl

theorem optional?_ofChar (root : Node) (c : Char) :
    optional? root (Value.ofChar c).toNode = some (some (Value.ofChar c).toNode) := by
  rw [optional?, Value.resolve?_toNode, Value.ofChar, Value.toNode]
  cases hstyle : Written.quoteStyle [c] with
  | plain => exact absurd hstyle (Written.quoteStyle_ne_plain _)
  | singleQuoted | doubleQuoted | literal | folded => rfl

theorem optional?_ofBool (root : Node) (b : Bool) :
    optional? root (Value.ofBool b).toNode = some (some (Value.ofBool b).toNode) := by
  cases b <;> rfl

@[simp]
theorem items?_sequence (root : Node) (items : List Value) :
    items? root (Value.sequence items).toNode = some (items.map Value.toNode) := by
  simp [items?, Value.toNode, Node.resolve?, Value.itemNodes_eq_map]

@[simp]
theorem fields?_mapping (root : Node) (entries : List (String × Value)) :
    fields? root (Value.mapping entries).toNode =
      some (entries.map fun (key, value) => (key, value.toNode)) := by
  simp only [fields?, Value.toNode, Node.resolve?, Value.entryNodes_eq_map,
    Option.bind_eq_bind, Option.bind_some]
  rw [Text.mapM_eq_some, List.forall₂_map_left_iff, List.forall₂_map_right_iff,
    List.forall₂_same]
  intro entry _
  simp [text?, Node.resolve?]

end Decode

end CategorizedIndex.Yaml
