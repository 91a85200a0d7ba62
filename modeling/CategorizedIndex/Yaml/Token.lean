/-! # YAML tokens

The marks and words of a YAML text. Collections that are told by indentation have
their starts and ends as tokens of their own, and a key has one in front of it.
-/
namespace CategorizedIndex.Yaml

/-- How a scalar is written. -/
inductive Style
  | plain
  | singleQuoted
  | doubleQuoted
  | literal
  | folded
  deriving DecidableEq

/-- Tags as octets, since escapes in them name octets. -/
abbrev Octets := List UInt8

def Octets.ofChars (s : List Char) : Octets := (String.ofList s).toUTF8.toList

inductive Token
  | version (major minor : Nat)
  | tagHandle (handle : List Char) (start : Octets)
  | documentStart
  | documentEnd
  | blockSequenceStart
  | blockMappingStart
  | blockEnd
  | flowSequenceStart
  | flowSequenceEnd
  | flowMappingStart
  | flowMappingEnd
  | blockEntry
  | flowEntry
  | key
  | value
  | reference (name : String)
  | anchor (name : String)
  | tag (handle : List Char) (suffix : Octets)
  | scalar (style : Style) (text : String)
  deriving DecidableEq

end CategorizedIndex.Yaml
