import CategorizedIndex.Number.Basic

/-! # Libraries for JSON

How data gets into a JSON text and out of it is left to a library. It is handed data to write,
and whoever expects something in a text asks for it, value by value.
-/
namespace CategorizedIndex.Json

/-- What is handed over to be written. -/
inductive Data
  | text (s : String)
  | number (x : Number)
  | word (w : UInt64)
  | bool (b : Bool)
  | mark (name : String)
  | variant (name : String) (content : Data)
  | list (items : List Data)
  | record (fields : List (String × Data))
  | map (entries : List (String × Data))
  | wordMap (entries : List (UInt64 × Data))

/-- A record stands in a text as its contents in order, or under its names. -/
inductive Record (α : Type)
  | inOrder (contents : List α)
  | named (fields : List (String × α))

/-- The contents of the names that are asked for. At the end of those that come in order some
may be missing; of those with names any may be missing, and none comes twice. -/
def Record.contents? {α : Type} (names : List String) : Record α → Option (List (Option α))
  | inOrder contents =>
    if contents.length ≤ names.length then
      some (contents.map some ++ List.replicate (names.length - contents.length) none)
    else none
  | named fields =>
    if names.any fun name => 1 < (fields.filter (·.1 == name)).length then none
    else some (names.map fun name => (fields.find? (·.1 == name)).map (·.2))

structure Library where
  /-- The values that are found in a text. -/
  Node : Type
  write : Data → String
  read? : String → Option Node
  text? : Node → Option String
  number? : Node → Option Number
  word? : Node → Option UInt64
  isNull : Node → Bool
  /-- The name of a variant, and its content unless the name stands alone. -/
  variant? : Node → Option (String × Option Node)
  items? : Node → Option (List Node)
  record? : Node → Option (Record Node)
  entries? : Node → Option (List (String × Node))
  wordEntries? : Node → Option (List (UInt64 × Node))
  /-- The text of a number. -/
  numeral : Number → String
  numberOf? : String → Option Number

def Library.contents? (lib : Library) (names : List String) (n : lib.Node) :
    Option (List (Option lib.Node)) :=
  (lib.record? n).bind (·.contents? names)

end CategorizedIndex.Json
