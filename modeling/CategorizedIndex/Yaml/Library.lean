/-! # Libraries for YAML

How data gets into a YAML text and out of it is left to a library. It is handed data to write,
and whoever expects something in a text asks for it, value by value. Absent fields are not
handed over; a field that may be absent is read with what stands for it.
-/
namespace CategorizedIndex.Yaml

/-- What is handed over to be written. -/
inductive Data
  | text (s : String)
  | char (c : Char)
  | bool (b : Bool)
  | word (name : String)
  | present (content : Data)
  | list (items : List Data)
  | record (fields : List (String × Data))

structure Library where
  /-- The values that are found in a text. -/
  Node : Type
  write : Data → String
  read? : String → Option Node
  text? : Node → Option String
  char? : Node → Option Char
  bool? : Node → Option Bool
  /-- The name of one of several words. -/
  word? : Node → Option String
  /-- What is absent, or may be read as such, holds nothing. -/
  optional? : Node → Option (Option Node)
  items? : Node → Option (List Node)
  fields? : Node → Option (List (String × Node))

namespace Library

variable {α : Type} (lib : Library)

def oneOf? (words : List (String × α)) (n : lib.Node) : Option α :=
  (lib.word? n).bind fun name => words.lookup name

def optionally? (read : lib.Node → Option α) (n : lib.Node) : Option (Option α) := do
  match ← lib.optional? n with
  | some content => (read content).map some
  | none => some none

end Library

/-! ## Fields -/

section Fields

variable {ν α : Type} (fields : List (String × ν)) (name : String)

/-- The field of a name, which is written at most once. -/
def field? : Option (Option ν) :=
  match fields.filter (·.1 == name) with
  | [] => some none
  | [(_, value)] => some (some value)
  | _ => none

def required? (read : ν → Option α) : Option α := do
  read (← ← field? fields name)

def withDefault? (read : ν → Option α) (default : α) : Option α := do
  match ← field? fields name with
  | some value => read value
  | none => some default

end Fields

end CategorizedIndex.Yaml
