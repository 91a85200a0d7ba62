import CategorizedIndex.Yaml.Token.Scalar
import CategorizedIndex.Yaml.Token.Word

/-! # YAML tokens from source

A colon makes a key of the node in front of it, so the start of a node that may be a
key is remembered until the line ends, and the token of the key is put in front of
it later. Indentation opens and closes collections; inside of brackets it counts
for nothing.
-/
namespace CategorizedIndex.Yaml

/-- The start of a node that may be a key, and the number of tokens before it. Where
nothing but a key can stand, it is required. -/
structure PossibleKey where
  index : Nat
  line : Nat
  column : Nat
  tokens : Nat
  required : Bool

/-- A key ends on its line and within 1024 octets. -/
def PossibleKey.isPast (s : Source) (k : PossibleKey) : Bool :=
  k.line < s.line || k.index + 1024 < s.index

structure Lexer where
  source : Source
  /-- The tokens so far, last first. -/
  tokens : List Token
  /-- The columns of the open collections, innermost first. -/
  indents : List Nat
  keyAllowed : Bool
  key : Option PossibleKey
  /-- The keys around each open bracket, innermost first. -/
  outerKeys : List (Option PossibleKey)

namespace Lexer

def start (s : Source) : Lexer := ⟨s, [], [], true, none, []⟩

def inFlow (x : Lexer) : Bool := !x.outerKeys.isEmpty

def emit (t : Token) (x : Lexer) : Lexer := { x with tokens := t :: x.tokens }

def insert (n : Nat) (t : Token) (x : Lexer) : Lexer :=
  { x with tokens := x.tokens.insertIdx (x.tokens.length - n) t }

def advance (n : Nat) (x : Lexer) : Lexer := { x with source := x.source.skip n }

def allowKey (allowed : Bool) (x : Lexer) : Lexer := { x with keyAllowed := allowed }

/-! ## Indentation -/

/-- Closes the collections that stand deeper than a column. -/
def closeTo (column : Nat) (x : Lexer) : Lexer :=
  if x.inFlow then x
  else
    { x with
      tokens := (x.indents.takeWhile (column < ·)).map (fun _ => .blockEnd) ++ x.tokens
      indents := x.indents.dropWhile (column < ·) }

def closeAll (x : Lexer) : Lexer :=
  if x.inFlow then x
  else { x with tokens := x.indents.map (fun _ => .blockEnd) ++ x.tokens, indents := [] }

/-- Opens a collection behind the first `n` tokens, if its column is deeper than that
of the innermost one. -/
def openAt (column n : Nat) (t : Token) (x : Lexer) : Lexer :=
  if !x.inFlow && x.indents.head?.all (· < column) then
    { x.insert n t with indents := column :: x.indents }
  else x

def openHere (t : Token) (x : Lexer) : Lexer := x.openAt x.source.column x.tokens.length t

/-! ## Keys -/

def dropKey? (x : Lexer) : Option Lexer :=
  if x.key.any (·.required) then none else some { x with key := none }

def markKey? (x : Lexer) : Option Lexer :=
  if x.keyAllowed then do
    let s := x.source
    let required := !x.inFlow && x.indents.head? = some s.column
    some { ← x.dropKey? with key := some ⟨s.index, s.line, s.column, x.tokens.length, required⟩ }
  else some x

def dropPastKeys? (x : Lexer) : Option Lexer :=
  let isPast := fun k => PossibleKey.isPast x.source k
  if (x.key :: x.outerKeys).any (·.any fun k => isPast k && k.required) then none
  else
    let kept := fun (key : Option PossibleKey) => key.filter fun k => !isPast k
    some { x with key := kept x.key, outerKeys := x.outerKeys.map kept }

/-! ## Gaps -/

/-- Skips blanks, comments and breaks. A tab is a blank where no key can start, and
behind a break a key can. A byte order mark may start a line and fills its column. -/
def gap (inFlow comment allowed : Bool) : Source → Source × Bool
  | [] => ([], allowed)
  | g :: rest =>
    if isBreak g.char then gap inFlow false (allowed || !inFlow) rest
    else if g.char = endChar then (g :: rest, allowed)
    else if g.column = 0 && g.char = byteOrderMark then gap inFlow false allowed rest
    else if comment || g.char = ' ' || (g.char = '\t' && (inFlow || !allowed)) then
      gap inFlow comment allowed rest
    else if g.char = '#' then gap inFlow true allowed rest
    else (g :: rest, allowed)

def skipGap (x : Lexer) : Lexer :=
  let (source, allowed) := gap x.inFlow false x.keyAllowed x.source
  { x with source := source, keyAllowed := allowed }

/-! ## Tokens -/

/-- Marks between documents end all that is open. -/
def betweenDocuments? (x : Lexer) : Option Lexer := do
  some ((← x.closeAll.dropKey?).allowKey false)

def directive? (x : Lexer) : Option Lexer := do
  let x ← x.betweenDocuments?
  let (token, rest) ← x.source.directive?
  some { x.emit token with source := rest }

def marker? (t : Token) (x : Lexer) : Option Lexer := do
  some (((← x.betweenDocuments?).emit t).advance 3)

def openFlow? (t : Token) (x : Lexer) : Option Lexer := do
  let x ← x.markKey?
  let inner := { x with key := none, outerKeys := x.key :: x.outerKeys, keyAllowed := true }
  some ((inner.emit t).advance 1)

def closeFlow? (t : Token) (x : Lexer) : Option Lexer := do
  let x ← x.dropKey?
  let outer := { x with key := x.outerKeys.head?.join, outerKeys := x.outerKeys.tail }
  some (((outer.allowKey false).emit t).advance 1)

def comma? (x : Lexer) : Option Lexer := do
  some ((((← x.dropKey?).allowKey true).emit .flowEntry).advance 1)

/-- Whether an item or a key may start here. Inside of brackets this is for the
grammar to decide. -/
def mayStart (x : Lexer) : Bool := x.inFlow || x.keyAllowed

def dash? (x : Lexer) : Option Lexer :=
  if x.mayStart then do
    let x ← (x.openHere .blockSequenceStart).dropKey?
    some (((x.allowKey true).emit .blockEntry).advance 1)
  else none

def explicitKey? (x : Lexer) : Option Lexer :=
  if x.mayStart then do
    let x ← (x.openHere .blockMappingStart).dropKey?
    some (((x.allowKey !x.inFlow).emit .key).advance 1)
  else none

def value? (x : Lexer) : Option Lexer :=
  match x.key with
  | some k =>
    let x := ((x.insert k.tokens .key).openAt k.column k.tokens .blockMappingStart)
    some ((({ x with key := none }.allowKey false).emit .value).advance 1)
  | none =>
    if x.mayStart then
      let x := x.openHere .blockMappingStart
      some (((x.allowKey !x.inFlow).emit .value).advance 1)
    else none

/-- A word or a scalar that may be a key. -/
def word? (read : Source → Option (Token × Source)) (x : Lexer) : Option Lexer := do
  let x ← x.markKey?
  let (token, rest) ← read x.source
  some { (x.allowKey false).emit token with source := rest }

def plain? (x : Lexer) : Option Lexer := do
  let x ← x.markKey?
  let indent := (x.indents.head?.map (· + 1)).getD 0
  let scalar ← x.source.plain? x.inFlow indent
  some { (x.allowKey scalar.endsLine).emit (.scalar .plain scalar.text) with
    source := scalar.rest }

def block? (style : Style) (x : Lexer) : Option Lexer := do
  let x ← x.dropKey?
  let (text, rest) ← (x.source.skip 1).block? style x.indents.head?
  some { (x.allowKey true).emit (.scalar style text) with source := rest }

def named? (token : String → Token) (s : Source) : Option (Token × Source) :=
  (s.skip 1).name?.map fun (name, rest) => (token name, rest)

def single? (s : Source) : Option (Token × Source) :=
  (s.skip 1).singleQuoted?.map fun (text, rest) => (.scalar .singleQuoted text, rest)

def double? (s : Source) : Option (Token × Source) :=
  (s.skip 1).doubleQuoted?.map fun (text, rest) => (.scalar .doubleQuoted text, rest)

/-- The characters that no plain scalar starts with; some may if a word follows. -/
def isIndicator (c : Char) : Bool :=
  isFlowIndicator c ||
    ['-', '?', ':', '#', '&', '*', '!', '|', '>', '\x27', '"', '%', '@', '\x60'].contains c

def startsPlain (x : Lexer) : Bool :=
  let c := x.source.head
  let next := x.source.ahead 1
  !(endsWord c || isIndicator c) || (c = '-' && !isBlank next) ||
    (!x.inFlow && (c = '?' || c = ':') && !endsWord next)

/-- Reads the token at the first character of the source. -/
def token? (x : Lexer) : Option Lexer :=
  let c := x.source.head
  let alone := endsWord (x.source.ahead 1)
  if x.source.column = 0 && c = '%' then x.directive?
  else if x.source.startsWith3 '-' then x.marker? .documentStart
  else if x.source.startsWith3 '.' then x.marker? .documentEnd
  else if c = '[' then x.openFlow? .flowSequenceStart
  else if c = '\x7b' then x.openFlow? .flowMappingStart
  else if c = ']' then x.closeFlow? .flowSequenceEnd
  else if c = '\x7d' then x.closeFlow? .flowMappingEnd
  else if c = ',' then x.comma?
  else if c = '-' && alone then x.dash?
  else if c = '?' && (x.inFlow || alone) then x.explicitKey?
  else if c = ':' && (x.inFlow || alone) then x.value?
  else if c = '*' then x.word? (named? .reference)
  else if c = '&' then x.word? (named? .anchor)
  else if c = '!' then x.word? (Source.tag? x.inFlow)
  else if c = '|' && !x.inFlow then x.block? .literal
  else if c = '>' && !x.inFlow then x.block? .folded
  else if c = '\x27' then x.word? single?
  else if c = '"' then x.word? double?
  else if x.startsPlain then x.plain?
  else none

/-- Every token takes a character off the source, so its length bounds their number. -/
def run : Nat → Lexer → Option (List Token)
  | 0, _ => none
  | steps + 1, x => do
    let x ← x.skipGap.dropPastKeys?
    let x := x.closeTo x.source.column
    if x.source.head = endChar then
      some (← x.betweenDocuments?).tokens.reverse
    else run steps (← x.token?)

end Lexer

def Token.scan (s : Source) : Option (List Token) := Lexer.run (s.length + 1) (.start s)

end CategorizedIndex.Yaml
