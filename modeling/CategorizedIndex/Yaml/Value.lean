import CategorizedIndex.Yaml.Node
import CategorizedIndex.Yaml.Written

/-! # Values to be written

What a YAML text can be written from: texts, sequences, and mappings with texts as
keys. A sequence inside of a mapping stands as deep as its key, all else two columns
deeper than what is around it.
-/
namespace CategorizedIndex.Yaml

inductive Value
  | scalar (style : Style) (text : String)
  | sequence (items : List Value)
  | mapping (entries : List (String × Value))

namespace Value

def ofString (s : String) : Value := scalar (Written.styleOf s) s

def ofChar (c : Char) : Value := scalar (Written.quoteStyle [c]) (String.singleton c)

def ofBool (b : Bool) : Value := scalar .plain (if b then "true" else "false")

/-! ## Values as nodes -/

mutual

def toNode : Value → Node
  | scalar style text => .scalar none none style text
  | sequence items => .sequence none (itemNodes items)
  | mapping entries => .mapping none (entryNodes entries)

def itemNodes : List Value → List Node
  | [] => []
  | item :: rest => toNode item :: itemNodes rest

def entryNodes : List (String × Value) → List (Node × Node)
  | [] => []
  | (key, value) :: rest =>
    (.scalar none none (Written.keyStyle key) key, toNode value) :: entryNodes rest

end

/-! ## Values as text -/

mutual

/-- A value from the column `indent` on, behind the mark of an item or on its own. -/
def itemChars (indent : Nat) : Value → List Char
  | scalar style text => Written.scalarLine (max 2 indent) style text.toList
  | sequence [] => "[]\n".toList
  | sequence items => itemsChars indent true items
  | mapping [] => "\x7b\x7d\n".toList
  | mapping entries => entriesChars indent true entries

/-- A value behind its key, which stands at the column `indent`. -/
def entryChars (indent : Nat) : Value → List Char
  | scalar style text => ' ' :: Written.scalarLine (indent + 2) style text.toList
  | sequence [] => " []\n".toList
  | sequence items => '\n' :: itemsChars indent false items
  | mapping [] => " \x7b\x7d\n".toList
  | mapping entries => '\n' :: entriesChars (indent + 2) false entries

/-- `inline` tells that the first item stands behind a mark in the same line. -/
def itemsChars (indent : Nat) (inline : Bool) : List Value → List Char
  | [] => []
  | item :: rest =>
    (if inline then [] else Written.spaces indent) ++
      '-' :: ' ' :: (itemChars (indent + 2) item ++ itemsChars indent false rest)

def entriesChars (indent : Nat) (inline : Bool) : List (String × Value) → List Char
  | [] => []
  | (key, value) :: rest =>
    (if inline then [] else Written.spaces indent) ++
      (Written.scalarChars indent (Written.keyStyle key) key.toList ++
        ':' :: (entryChars indent value ++ entriesChars indent false rest))

end

def toText (v : Value) : String := String.ofList (itemChars 0 v)

end Value

end CategorizedIndex.Yaml
