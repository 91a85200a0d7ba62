/-! # YAML source

The characters of a YAML text with the places where they stand. A carriage return
and a line feed in a row are one line break, and so is either of them alone. The
end of the text stands as a null character, which no text may hold.
-/
namespace CategorizedIndex.Yaml

structure Glyph where
  char : Char
  /-- The number of octets before the character. -/
  index : Nat
  line : Nat
  column : Nat

abbrev Source := List Glyph

def endChar : Char := '\x00'

def byteOrderMark : Char := '\ufeff'

def isBlank (c : Char) : Bool := c = ' ' || c = '\t'

def isBreak (c : Char) : Bool := c = '\n' || c = '\u2028' || c = '\u2029'

def endsWord (c : Char) : Bool := isBlank c || isBreak c || c = endChar

def endsLine (c : Char) : Bool := isBreak c || c = endChar

def isNameChar (c : Char) : Bool := c.isAlphanum || c = '_' || c = '-'

def isFlowIndicator (c : Char) : Bool := [',', '[', ']', '\x7b', '\x7d'].contains c

def isAllowed (c : Char) : Bool :=
  let n := c.toNat
  c = '\t' || c = '\n' || c = '\r' || (0x20 ≤ n && n ≤ 0x7e) || n = 0x85 ||
    (0xa0 ≤ n && n ≤ 0xfffd) || 0x10000 ≤ n

namespace Source

/-- Breaks of the line other than the line and the paragraph separator become line
feeds. -/
def place (index line column : Nat) : List Char → Source
  | [] => [⟨endChar, index, line, column⟩]
  | '\r' :: '\n' :: rest => ⟨'\n', index, line, column⟩ :: place (index + 2) (line + 1) 0 rest
  | c :: rest =>
    let next := index + c.utf8Size
    if c = '\r' || c = '\x85' then
      ⟨'\n', index, line, column⟩ :: place next (line + 1) 0 rest
    else
      ⟨c, index, line, column⟩ ::
        if isBreak c then place next (line + 1) 0 rest
        else place next line (column + 1) rest

def ofText? (s : String) : Option Source :=
  if s.toList.all isAllowed then some (place 0 0 0 s.toList) else none

def head : Source → Char
  | g :: _ => g.char
  | [] => endChar

def column : Source → Nat
  | g :: _ => g.column
  | [] => 0

def line : Source → Nat
  | g :: _ => g.line
  | [] => 0

def index : Source → Nat
  | g :: _ => g.index
  | [] => 0

def skip (s : Source) (n : Nat) : Source := s.drop n

def ahead (s : Source) (n : Nat) : Char := (s.skip n).head

/-- Whether a line starts with three of a character, alone or followed by a gap. -/
def startsWith3 (c : Char) (s : Source) : Bool :=
  s.column = 0 && s.head = c && s.ahead 1 = c && s.ahead 2 = c && endsWord (s.ahead 3)

def atMarker (s : Source) : Bool := s.startsWith3 '-' || s.startsWith3 '.'

def spanChars (p : Char → Bool) : Source → List Char × Source
  | [] => ([], [])
  | g :: rest =>
    if p g.char then
      let (taken, left) := spanChars p rest
      (g.char :: taken, left)
    else ([], g :: rest)

def skipBlanks (s : Source) : Source := (s.spanChars isBlank).2

/-- The start of the next line, if only blanks and a comment remain in this one. -/
def restOfLine? (s : Source) : Option Source :=
  let s := s.skipBlanks
  let s := if s.head = '#' then (s.spanChars fun c => !endsLine c).2 else s
  if isBreak s.head then some (s.skip 1)
  else if s.head = endChar then some s
  else none

end Source

end CategorizedIndex.Yaml
