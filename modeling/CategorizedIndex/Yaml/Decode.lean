import CategorizedIndex.Yaml.Node
import CategorizedIndex.Yaml.Plain

/-! # Typed reading of YAML nodes

What is expected decides how a scalar is read: every scalar is a text, and text
without quotes may be more. Aliases are followed within the document at `root`.
-/
namespace CategorizedIndex.Yaml.Decode

def nullTag : Octets := Octets.ofChars "tag:yaml.org,2002:null".toList
def boolTag : Octets := Octets.ofChars "tag:yaml.org,2002:bool".toList

/-- A tag that starts with an exclamation mark names what the node is. -/
def nameOf? (tag : Octets) : Option String :=
  match tag with
  | 0x21 :: name => String.fromUTF8? ⟨name.toArray⟩
  | _ => none

def isNullText (s : String) : Bool := s.isEmpty || Plain.isNull s

def text? (root node : Node) : Option String := do
  match ← root.resolve? node with
  | .scalar _ _ _ text => some text
  | _ => none

def char? (root node : Node) : Option Char := do
  match (← text? root node).toList with
  | [c] => some c
  | _ => none

/-- Truth values stand without quotes, or in a block that is tagged as one. -/
def bool? (root node : Node) : Option Bool := do
  match ← root.resolve? node with
  | .scalar _ tag style text =>
    if style = .plain || (style = .literal && tag = some boolTag) then Plain.bool? text else none
  | _ => none

/-- One of several words, told by the tag where the text is null, or by the text. -/
def word? (root node : Node) : Option String := do
  match ← root.resolve? node with
  | .scalar _ tag style text =>
    match tag.bind nameOf? with
    | some name => if style = .plain && isNullText text then some name else none
    | none => some text
  | _ => none

/-- What is null, or may be read as such, holds nothing. -/
def optional? (root node : Node) : Option (Option Node) := do
  let target ← root.resolve? node
  match target with
  | .scalar _ tag .plain text =>
    match tag with
    | none => some (if isNullText text then none else some target)
    | some tag =>
      if tag = nullTag then if Plain.isNull text then some none else none
      else some (some target)
  | _ => some (some target)

/-- Where nothing is written there are no items. -/
def items? (root node : Node) : Option (List Node) := do
  match ← root.resolve? node with
  | .sequence _ items => some items
  | .scalar _ _ .plain "" => some []
  | _ => none

def fields? (root node : Node) : Option (List (String × Node)) := do
  match ← root.resolve? node with
  | .mapping _ entries => entries.mapM fun (key, value) => do some (← text? root key, value)
  | .scalar _ _ .plain "" => some []
  | _ => none

end CategorizedIndex.Yaml.Decode
