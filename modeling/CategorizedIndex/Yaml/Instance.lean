import CategorizedIndex.Yaml.Decode
import CategorizedIndex.Yaml.Library
import CategorizedIndex.Yaml.Node.Read
import CategorizedIndex.Yaml.Value

/-! # The library for YAML in use

Data is written in blocks, and each field in a line of its own. What is found in a text is
found in a document.
-/
namespace CategorizedIndex.Yaml

mutual

def Data.toValue : Data → Value
  | .text s | .word s => .ofString s
  | .char c => .ofChar c
  | .bool b => .ofBool b
  | .present content => content.toValue
  | .list items => .sequence (itemsToValue items)
  | .record fields => .mapping (fieldsToValue fields)

def itemsToValue : List Data → List Value
  | [] => []
  | item :: rest => item.toValue :: itemsToValue rest

def fieldsToValue : List (String × Data) → List (String × Value)
  | [] => []
  | (name, content) :: rest => (name, content.toValue) :: fieldsToValue rest

end

structure Place where
  root : Node
  node : Node

def library : Library where
  Node := Place
  write d := d.toValue.toText
  read? text := (Node.ofText? text).map fun root => ⟨root, root⟩
  text? p := Decode.text? p.root p.node
  char? p := Decode.char? p.root p.node
  bool? p := Decode.bool? p.root p.node
  word? p := Decode.word? p.root p.node
  optional? p := (Decode.optional? p.root p.node).map (·.map (⟨p.root, ·⟩))
  items? p := (Decode.items? p.root p.node).map (·.map (⟨p.root, ·⟩))
  fields? p := (Decode.fields? p.root p.node).map (·.map fun (name, node) => (name, ⟨p.root, node⟩))

end CategorizedIndex.Yaml
