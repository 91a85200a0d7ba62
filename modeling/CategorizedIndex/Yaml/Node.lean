import CategorizedIndex.Yaml.Token

/-! # YAML nodes

The content of a document: texts, sequences and mappings. A node that is anchored
carries a label, and an alias carries the label of the node that it stands for,
which may be a node around it.
-/
namespace CategorizedIndex.Yaml

inductive Node
  | scalar (label : Option Nat) (tag : Option Octets) (style : Style) (text : String)
  | reference (label : Nat)
  | sequence (label : Option Nat) (items : List Node)
  | mapping (label : Option Nat) (entries : List (Node × Node))

namespace Node

def nothing : Node := scalar none none .plain ""

mutual

/-- The last node with a label, where a node counts before those inside of it. -/
def labelled? (label : Nat) : Node → Option Node
  | scalar own tag style text =>
    if own = some label then some (scalar own tag style text) else none
  | reference _ => none
  | sequence own items =>
    (labelledItem? label items).or
      (if own = some label then some (sequence own items) else none)
  | mapping own entries =>
    (labelledField? label entries).or
      (if own = some label then some (mapping own entries) else none)

def labelledItem? (label : Nat) : List Node → Option Node
  | [] => none
  | item :: rest => (labelledItem? label rest).or (labelled? label item)

def labelledField? (label : Nat) : List (Node × Node) → Option Node
  | [] => none
  | (key, value) :: rest =>
    (labelledField? label rest).or ((labelled? label value).or (labelled? label key))

end

/-- The node that a node inside of a document stands for. -/
def resolve? (root : Node) : Node → Option Node
  | reference label => root.labelled? label
  | node => some node

end Node

end CategorizedIndex.Yaml
