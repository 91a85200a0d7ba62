import CategorizedIndex.Json.Library
import CategorizedIndex.Json.Number
import CategorizedIndex.Json.Read

/-! # The library for JSON in use

Data is written as JSON without blanks. A variant is an object with one member, or its bare
name if it holds nothing; a record is an object, or an array of its contents in order.
-/
namespace CategorizedIndex.Json

mutual

def Data.toJson : Data → Json
  | .text s => .ofString s
  | .number x => .ofNumber x
  | .word w => .ofNat w.toNat
  | .bool b => .bool b
  | .mark name => .ofString name
  | .variant name content => .object [(.ofString name, content.toJson)]
  | .list items => .array (itemsToJson items)
  | .record fields => .object (membersToJson fields)
  | .map entries => .object (membersToJson entries)
  | .wordMap entries => .object (wordEntriesToJson entries)

def itemsToJson : List Data → List Json
  | [] => []
  | item :: rest => item.toJson :: itemsToJson rest

def membersToJson : List (String × Data) → List (JsonText × Json)
  | [] => []
  | (name, content) :: rest => (.ofString name, content.toJson) :: membersToJson rest

def wordEntriesToJson : List (UInt64 × Data) → List (JsonText × Json)
  | [] => []
  | (key, content) :: rest =>
    (.ofString (toString key.toNat), content.toJson) :: wordEntriesToJson rest

end

def string? : Json → Option String
  | text t => t.toString?
  | _ => none

def toNumber? : Json → Option Number
  | number n => n.toNumber?
  | _ => none

def word? : Json → Option UInt64
  | number n => n.toNat?.map UInt64.ofNat
  | _ => none

def isNull : Json → Bool
  | null => true
  | _ => false

def variant? : Json → Option (String × Option Json)
  | text t => t.toString?.map (·, none)
  | object [(name, content)] => name.toString?.map (·, some content)
  | _ => none

def items : Json → Option (List Json)
  | array items => some items
  | _ => none

def entries? : Json → Option (List (String × Json))
  | object members => members.mapM fun (name, content) => name.toString?.map (·, content)
  | _ => none

def record? : Json → Option (Record Json)
  | array items => some (.inOrder items)
  | j => j.entries?.map .named

/-- A key that is written as a number between quotes. -/
def wordOfKey? (name : JsonText) : Option UInt64 :=
  match Json.number? name.raw with
  | some (n, []) => n.toNat?.map UInt64.ofNat
  | _ => none

def wordEntries? : Json → Option (List (UInt64 × Json))
  | object members => members.mapM fun (name, content) => (wordOfKey? name).map (·, content)
  | _ => none

def numeral (x : Number) : String := String.ofList (JsonNumber.ofNumber x).toChars

def ofNumeral? (text : String) : Option Number :=
  match Json.number? text.toList with
  | some (n, []) => n.toNumber?
  | _ => none

def library : Library where
  Node := Json
  write d := d.toJson.toText
  read? := ofText?
  text? := string?
  number? := toNumber?
  word? := word?
  isNull := isNull
  variant? := variant?
  items? := items
  record? := record?
  entries? := entries?
  wordEntries? := wordEntries?
  numeral := numeral
  numberOf? := ofNumeral?

end CategorizedIndex.Json
