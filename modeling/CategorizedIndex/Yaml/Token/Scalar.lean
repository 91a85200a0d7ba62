import CategorizedIndex.Text.Digits
import CategorizedIndex.Yaml.Fold

/-! # Scalars in YAML source

Each reader takes the source from the start of a scalar, behind its opening mark if
it has one, and returns the text of the scalar and the source behind it.
-/
namespace CategorizedIndex.Yaml

def Piece.isGap : Piece → Bool
  | blank _ | lineBreak _ => true
  | _ => false

def Piece.isLineBreak : Piece → Bool
  | lineBreak _ => true
  | _ => false

def Piece.ofChar (c : Char) : Piece :=
  if isBlank c then blank c else if isBreak c then lineBreak c else char c

namespace Source

def addPiece (p : Piece) (r : Option (List Piece × Source)) : Option (List Piece × Source) :=
  r.map fun (pieces, rest) => (p :: pieces, rest)

/-! ## Plain scalars -/

def endsPlain (flow : Bool) (indent : Nat) (s : Source) : Bool :=
  s.atMarker || s.head = '#' || (!flow && s.column < indent)

/-- `broken` tells a break since the last word, `between` a gap. Text outside of
collections on one line starts at `indent` or behind it. -/
def plainPieces? (flow : Bool) (indent : Nat) (between broken : Bool) :
    Source → Option (List Piece × Source)
  | [] => some ([], [])
  | g :: rest =>
    if isBlank g.char then
      if broken && g.char = '\t' && g.column < indent then none
      else addPiece (.blank g.char) (plainPieces? flow indent true broken rest)
    else if isBreak g.char then
      addPiece (.lineBreak g.char) (plainPieces? flow indent true true rest)
    else if g.char = endChar || (between && endsPlain flow indent (g :: rest)) then
      some ([], g :: rest)
    else if flow && g.char = ':' && (isFlowIndicator (head rest) || head rest = '?') then none
    else if (g.char = ':' && endsWord (head rest)) || (flow && isFlowIndicator g.char) then
      some ([], g :: rest)
    else addPiece (.char g.char) (plainPieces? flow indent false false rest)

structure PlainScalar where
  text : String
  /-- Whether the gap behind the scalar has a break. -/
  endsLine : Bool
  rest : Source

def plain? (flow : Bool) (indent : Nat) (s : Source) : Option PlainScalar := do
  let (pieces, rest) ← s.plainPieces? flow indent false false
  let gap := pieces.reverse.takeWhile Piece.isGap
  let words := (pieces.reverse.dropWhile Piece.isGap).reverse
  some ⟨String.ofList (folded .empty words), gap.any Piece.isLineBreak, rest⟩

/-! ## Quoted scalars -/

def quotedText (r : List Piece × Source) : String × Source :=
  (String.ofList (folded .empty r.1), r.2)

/-- A quote is written twice. -/
def singlePieces? : Source → Option (List Piece × Source)
  | [] => none
  | g :: rest =>
    if atMarker (g :: rest) || g.char = endChar then none
    else if g.char = '\x27' then
      match rest with
      | [] => some ([], [])
      | next :: rest =>
        if next.char = '\x27' then addPiece (.char '\x27') (singlePieces? rest)
        else some ([], next :: rest)
    else addPiece (.ofChar g.char) (singlePieces? rest)

def singleQuoted? (s : Source) : Option (String × Source) := s.singlePieces?.map quotedText

/-- The character that a letter behind a backslash stands for. -/
def escaped? (c : Char) : Option Char :=
  ([ ('0', '\x00'), ('a', '\x07'), ('b', '\x08'), ('t', '\t'), ('\t', '\t'), ('n', '\n'),
     ('v', '\x0b'), ('f', '\x0c'), ('r', '\r'), ('e', '\x1b'), (' ', ' '), ('"', '"'),
     ('/', '/'), ('\\', '\\'), ('N', '\x85'), ('_', '\xa0'), ('L', '\u2028'),
     ('P', '\u2029') ] : List (Char × Char)).lookup c

def escapeDigits? (c : Char) : Option Nat :=
  [('x', 2), ('u', 4), ('U', 8)].lookup c

def charOf? (code : Nat) : Option Char :=
  if h : code.isValidChar then some (Char.ofNatAux code h) else none

/-- `escape` holds the digits that an escape still needs and its value so far. -/
def doublePieces? (escape : Option (Nat × Nat)) : Source → Option (List Piece × Source)
  | [] => none
  | g :: rest =>
    match escape with
    | some (digits, value) =>
      match Text.hexValue? g.char with
      | none => none
      | some digit =>
        if digits = 1 then
          match charOf? (value * 16 + digit) with
          | none => none
          | some c => addPiece (.char c) (doublePieces? none rest)
        else doublePieces? (some (digits - 1, value * 16 + digit)) rest
    | none =>
      if atMarker (g :: rest) || g.char = endChar then none
      else if g.char = '"' then some ([], rest)
      else if g.char = '\\' then
        match rest with
        | [] => none
        | next :: rest =>
          if isBreak next.char then addPiece .joint (doublePieces? none rest)
          else match escaped? next.char, escapeDigits? next.char with
            | some c, _ => addPiece (.char c) (doublePieces? none rest)
            | none, some digits => doublePieces? (some (digits, 0)) rest
            | none, none => none
      else addPiece (.ofChar g.char) (doublePieces? none rest)

def doubleQuoted? (s : Source) : Option (String × Source) := (s.doublePieces? none).map quotedText

/-! ## Block scalars -/

def chomping? (c : Char) : Option Chomping := [('+', .keep), ('-', .strip)].lookup c

def indentation? (c : Char) : Option Nat :=
  if c.isDigit && c ≠ '0' then some (c.toNat - '0'.toNat) else none

structure BlockHeader where
  chomping : Chomping
  indentation : Option Nat
  rest : Source

/-- The marks behind the indicator, in either order; zero is no indentation. -/
def blockMarks (s : Source) : BlockHeader :=
  match chomping? s.head, indentation? s.head with
  | some chomping, _ =>
    match indentation? (s.ahead 1) with
    | some n => ⟨chomping, some n, s.skip 2⟩
    | none => ⟨chomping, none, s.skip 1⟩
  | none, some n =>
    match chomping? (s.ahead 1) with
    | some chomping => ⟨chomping, some n, s.skip 2⟩
    | none => ⟨.clip, some n, s.skip 1⟩
  | none, none => ⟨.clip, none, s⟩

/-- The widest indentation up to the first line with content, which starts with no
tab. -/
def widestIndent? (widest : Nat) : Source → Option Nat
  | [] => some widest
  | g :: rest =>
    if g.char = ' ' then widestIndent? widest rest
    else if g.char = '\t' then none
    else if isBreak g.char then widestIndent? (max widest g.column) rest
    else some (max widest g.column)

/-- `content` holds the characters of the line at hand, last first. -/
def blockLines? (indent : Nat) (content : Option (List Char)) :
    Source → Option (List BlockLine × Source)
  | [] => some ([], [])
  | g :: rest =>
    match content with
    | none =>
      if g.char = ' ' && g.column < indent then blockLines? indent none rest
      else if g.char = '\t' && g.column < indent then none
      else if isBreak g.char then
        (blockLines? indent none rest).map fun (lines, rest) =>
          (⟨[], some g.char⟩ :: lines, rest)
      else if g.column = indent && g.char ≠ endChar then
        blockLines? indent (some [g.char]) rest
      else some ([], g :: rest)
    | some content =>
      if isBreak g.char then
        (blockLines? indent none rest).map fun (lines, rest) =>
          (⟨content.reverse, some g.char⟩ :: lines, rest)
      else if g.char = endChar then some ([⟨content.reverse, none⟩], g :: rest)
      else blockLines? indent (some (g.char :: content)) rest

/-- Without a given indentation, that of the first line with content counts. The
text stands deeper than the collection around it. -/
def block? (style : Style) (parent : Option Nat) (s : Source) : Option (String × Source) := do
  let header := s.blockMarks
  let s ← header.rest.restOfLine?
  let indent ← match header.indentation with
    | some n => some (parent.getD 0 + n)
    | none => (widestIndent? 0 s).map fun widest => max widest ((parent.map (· + 1)).getD 1)
  let (lines, rest) ← s.blockLines? indent none
  some (String.ofList (blockText style header.chomping .start lines), rest)

end Source

end CategorizedIndex.Yaml
