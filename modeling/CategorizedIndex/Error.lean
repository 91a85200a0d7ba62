import CategorizedIndex.Text.Quoted
import CategorizedIndex.Value
import CategorizedIndex.Violation

/-! # Errors

Each way an operation can fail is a cause; its kind and its wording follow from
the cause. Faults in texts that are read have no wording of their own.
-/
namespace CategorizedIndex

inductive ErrorKind
  | config
  | comparison
  | invariant
  | valueFunction
  | invalidInput
  | serialization
  | io
  deriving DecidableEq

def ErrorKind.name : ErrorKind → String
  | config => "config"
  | comparison => "comparison"
  | invariant => "invariant"
  | valueFunction => "value_function"
  | invalidInput => "invalid_input"
  | serialization => "serialization"
  | io => "io"

inductive Error
  | badSeparator (c : Char)
  | emptyItemName (title : String)
  | repeatedItem (item : String)
  | unsortedCategory (item : String)
  | formulaAndFunction (item : String)
  | unreadableConfig (path : String)
  | keyKinds (x y : Scalar) (position : Nat)
  | siblingKinds (x y : Scalar) (item : String)
  | repeatedSentinel
  | mixedDirections (position : Nat)
  | broken (violation : Violation)
  | valueFunction (item message : String)
  | emptyOrigin
  | reservedOrigin
  | reservedId (origin : String) (id : UInt64)
  | malformedText
  | io (cause : String)
  | reported (kind : ErrorKind) (message : String) (source : Option String)
  deriving DecidableEq

namespace Error

def kind : Error → ErrorKind
  | badSeparator _ | emptyItemName _ | repeatedItem _ | unsortedCategory _
  | formulaAndFunction _ | unreadableConfig _ => .config
  | keyKinds .. | siblingKinds .. => .comparison
  | repeatedSentinel | mixedDirections _ | broken _ => .invariant
  | valueFunction .. => .valueFunction
  | emptyOrigin | reservedOrigin | reservedId .. => .invalidInput
  | malformedText => .serialization
  | io _ => .io
  | reported kind .. => kind

def scalarWithKind (v : Scalar) : String := v.toText ++ " (" ++ v.kind.name ++ ")"

def message : Error → String
  | badSeparator c =>
    "path separator " ++ Text.quotedChar c ++ " must be a punctuation character"
  | emptyItemName title => "column '" ++ title ++ "' has an empty item name"
  | repeatedItem item => "item name '" ++ item ++ "' is declared twice"
  | unsortedCategory item => "category column '" ++ item ++ "' has no sort direction"
  | formulaAndFunction item =>
    "column '" ++ item ++ "' declares both a formula and a value function"
  | unreadableConfig path => "cannot read view config " ++ path
  | keyKinds x y position =>
    "cannot compare " ++ scalarWithKind x ++ " with " ++ scalarWithKind y ++
      " at sort position " ++ toString position
  | siblingKinds x y item =>
    "cannot compare " ++ scalarWithKind x ++ " with " ++ scalarWithKind y ++
      " among siblings in column '" ++ item ++ "'"
  | repeatedSentinel => "two sort keys carry the same sentinel at one position"
  | mixedDirections position =>
    "sort position " ++ toString position ++ " mixes ascending and descending values"
  | broken violation => violation.message
  | valueFunction item message =>
    "Value function of column '" ++ item ++ "' failed: " ++ message
  | emptyOrigin => "data change has an empty origin"
  | reservedOrigin =>
    "origin '" ++ ScopedId.categoryOrigin ++ "' is reserved for categories"
  | reservedId origin id =>
    "id 0x" ++ String.ofList (Text.hexDigits id.toNat) ++ " from origin '" ++ origin ++
      "' carries the reserved category bit"
  | malformedText => ""
  | io cause => "I/O error: " ++ cause
  | reported _ message _ => message

def source? : Error → Option String
  | io cause => some cause
  | reported _ _ source => source
  | _ => none

def toText (e : Error) : String := "[" ++ e.kind.name ++ "] " ++ e.message

end Error

end CategorizedIndex
