import CategorizedIndex.Config
import CategorizedIndex.Yaml.Instance

/-! # Stored configurations

Configurations as data and back, for any library for YAML. Value functions are not stored. What
a text leaves out is standard, what it adds is passed over, and a configuration that is read has
been validated.
-/
namespace CategorizedIndex
open Yaml

def Expansion.name : Expansion → String
  | expanded => "expanded"
  | collapsed => "collapsed"

def Direction.name : Direction → String
  | ascending => "ascending"
  | descending => "descending"

/-! ## Writing -/

def Column.fields (c : Column) : List (String × Data) :=
  [ ("title", .text c.title), ("item_name", .text c.item), ("category", .bool c.isCategory) ] ++
  (c.direction.map fun direction => ("sort", Data.present (.word direction.name))).toList ++
  (c.formula.map fun formula => ("formula", Data.present (.text formula))).toList

namespace Config

def fields (c : Config) : List (String × Data) :=
  [ ("path_separator", .char c.separator),
    ("default_expansion", .word c.expansion.name),
    ("strict_value_types", .bool c.strict),
    ("columns", .list (c.columns.map fun column => .record column.fields)) ]

def store (lib : Library) (c : Config) : String := lib.write (.record c.fields)

end Config

/-! ## Reading -/

section Reading

variable (lib : Library)

def Expansion.ofNode? : lib.Node → Option Expansion :=
  lib.oneOf? [(expanded.name, expanded), (collapsed.name, collapsed)]

def Direction.ofNode? : lib.Node → Option Direction :=
  lib.oneOf? [(ascending.name, ascending), (descending.name, descending)]

def Column.ofNode? (n : lib.Node) : Option Column := do
  let fields ← lib.fields? n
  some
    { title := ← required? fields "title" lib.text?
      item := ← required? fields "item_name" lib.text?
      isCategory := ← withDefault? fields "category" lib.bool? false
      direction := ← withDefault? fields "sort" (lib.optionally? (Direction.ofNode? lib)) none
      formula := ← withDefault? fields "formula" (lib.optionally? lib.text?) none
      compute := none }

namespace Config

def columnsOfNode? (n : lib.Node) : Option (List Column) := do
  (← lib.items? n).mapM (Column.ofNode? lib)

def ofNode? (n : lib.Node) : Option Config := do
  let fields ← lib.fields? n
  some
    { separator := ← withDefault? fields "path_separator" lib.char? standard.separator
      expansion :=
        ← withDefault? fields "default_expansion" (Expansion.ofNode? lib) standard.expansion
      strict := ← withDefault? fields "strict_value_types" lib.bool? standard.strict
      columns := ← withDefault? fields "columns" (columnsOfNode? lib) standard.columns }

/-- The configuration of a text, unless the text or the configuration has a fault. -/
def load (text : String) : Except Error Config := do
  match (lib.read? text).bind (ofNode? lib) with
  | none => throw .malformedText
  | some c =>
    c.validate
    return c

end Config

end Reading

/-! ## The texts in use -/

namespace Config

def toYaml (c : Config) : String := c.store library

def ofYaml (text : String) : Except Error Config := load library text

/-- The configuration of a file, of which `text` is what could be read. -/
def ofFile (path : String) (text : Option String) : Except Error Config :=
  match text with
  | some text => ofYaml text
  | none => .error (.unreadableConfig path)

end Config

end CategorizedIndex
