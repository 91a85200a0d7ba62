import CategorizedIndex.Text.Digits
import CategorizedIndex.Yaml.Plain
import CategorizedIndex.Yaml.Source
import CategorizedIndex.Yaml.Token

/-! # Scalars as they are written

A text is written without quotes where it then reads back as itself, between lines of
its own if it has several, in single quotes otherwise, and in double quotes if it
holds characters that only an escape can write.
-/
namespace CategorizedIndex.Yaml.Written

/-! ## The style of a text -/

/-- Characters that may stand as they are: neither controls other than the line
feed, nor the byte order mark, nor the two characters that end the first plane. -/
def isPrintable (c : Char) : Bool :=
  let n := c.toNat
  c = '\n' || (0x20 ≤ n && n ≤ 0x7e) || (0xa0 ≤ n && n ≤ 0xfffd && n ≠ 0xfeff) ||
    0x10000 ≤ n

def hasPair (p q : Char → Bool) (s : List Char) : Bool :=
  (s.zip s.tail).any fun (a, b) => p a && q b

def isSpace (c : Char) : Bool := c = ' '

def needsEscape (s : List Char) : Bool := !s.all isPrintable || hasPair isSpace isBreak s

def fitsSingleQuotes (s : List Char) : Bool := !needsEscape s && !hasPair isBreak isSpace s

def fitsBlock (s : List Char) : Bool := !needsEscape s && s.getLast? ≠ some ' '

/-- Whether a first character alone keeps a text from being plain, or does so in front
of a space or the end. -/
def startsAsMark : List Char → Bool
  | [] => false
  | c :: rest =>
    [ '#', ',', '[', ']', '\x7b', '\x7d', '&', '*', '!', '|', '>', '\x27', '"', '%', '@',
      '\x60' ].contains c ||
      (['?', ':', '-'].contains c && rest.head?.all isSpace)

def holdsMark (s : List Char) : Bool :=
  s.take 3 = ['-', '-', '-'] || s.take 3 = ['.', '.', '.'] ||
    hasPair (· = ':') isSpace s || hasPair isSpace (· = '#') s || s.getLast? = some ':'

def fitsPlain (s : List Char) : Bool :=
  !needsEscape s && !s.any isBreak && s.head? ≠ some ' ' && s.getLast? ≠ some ' ' &&
    !startsAsMark s && !holdsMark s

def quoteStyle (s : List Char) : Style :=
  if fitsSingleQuotes s then .singleQuoted else .doubleQuoted

def styleOf (text : String) : Style :=
  let s := text.toList
  if s.contains '\n' then if fitsBlock s then .literal else .doubleQuoted
  else if Plain.isText text && fitsPlain s then .plain
  else quoteStyle s

/-! ## The characters of a scalar -/

def spaces (n : Nat) : List Char := List.replicate n ' '

/-- `broken` tells that the line is still empty. The first of several breaks stands
twice, since one break alone would be read as a space. -/
def singleQuotedChars (indent : Nat) (broken : Bool) : List Char → List Char
  | [] => if broken then spaces indent else []
  | c :: rest =>
    if isBreak c then
      (if !broken && c = '\n' then ['\n'] else []) ++ c :: singleQuotedChars indent true rest
    else
      (if broken then spaces indent else []) ++ (if c = '\x27' then [c, c] else [c]) ++
        singleQuotedChars indent false rest

/-- What needs an escape has at most 16 bits. -/
def escape (c : Char) : List Char :=
  let short : List (Char × Char) :=
    [ ('\x00', '0'), ('\x07', 'a'), ('\x08', 'b'), ('\t', 't'), ('\n', 'n'), ('\x0b', 'v'),
      ('\x0c', 'f'), ('\r', 'r'), ('\x1b', 'e'), ('"', '"'), ('\\', '\\'), ('\x85', 'N'),
      ('\xa0', '_'), ('\u2028', 'L'), ('\u2029', 'P') ]
  let digits := (Text.hexDigits c.toNat).map Char.toUpper
  match short.lookup c with
  | some letter => ['\\', letter]
  | none =>
    if c.toNat ≤ 0xff then '\\' :: 'x' :: Text.filled 2 digits
    else '\\' :: 'u' :: Text.filled 4 digits

def doubleQuotedChar (c : Char) : List Char :=
  if !isPrintable c || isBreak c || c = '"' || c = '\\' then escape c else [c]

def blockChars (indent : Nat) (broken : Bool) : List Char → List Char
  | [] => []
  | c :: rest =>
    if isBreak c then c :: blockChars indent true rest
    else (if broken then spaces indent else []) ++ c :: blockChars indent false rest

/-- How far a block is indented has to be told if its first line does not show it. -/
def indentMark (s : List Char) : List Char :=
  if s.head?.any fun c => isSpace c || isBreak c then ['2'] else []

/-- Which breaks at the end belong to the text. -/
def chompingMark (s : List Char) : List Char :=
  match s.reverse with
  | a :: b :: _ => if !isBreak a then ['-'] else if isBreak b then ['+'] else []
  | [a] => if isBreak a then ['+'] else ['-']
  | [] => ['-']

/-- A scalar behind what is around it; text of several lines is indented. -/
def scalarChars (indent : Nat) (style : Style) (s : List Char) : List Char :=
  match style with
  | .plain => s
  | .singleQuoted => '\x27' :: (singleQuotedChars indent false s ++ ['\x27'])
  | .doubleQuoted => '"' :: (s.flatMap doubleQuotedChar ++ ['"'])
  | .literal | .folded =>
    '|' :: (indentMark s ++ chompingMark s ++ '\n' :: blockChars indent true s)

/-- A scalar up to the end of its last line, which a block may hold itself. -/
def scalarLine (indent : Nat) (style : Style) (s : List Char) : List Char :=
  let isBlock := style = .literal || style = .folded
  scalarChars indent style s ++ if isBlock && s.getLast?.any isBreak then [] else ['\n']

def keyStyle (key : String) : Style :=
  if key.toList.any isBreak then .doubleQuoted else styleOf key

end CategorizedIndex.Yaml.Written
