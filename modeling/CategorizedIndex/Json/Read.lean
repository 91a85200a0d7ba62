import CategorizedIndex.Json.Basic

/-! # JSON values from text

Reading by descent. Every call takes at least one character off the text before
the next, so the length of the text bounds their depth.
-/
namespace CategorizedIndex.Json

def isSpace (c : Char) : Bool := c = ' ' || c = '\n' || c = '\t' || c = '\r'

def skipSpace (s : List Char) : List Char := s.dropWhile isSpace

def hexUnit? (a b c d : Char) : Option Nat := do
  let a ← Text.hexValue? a
  let b ← Text.hexValue? b
  let c ← Text.hexValue? c
  let d ← Text.hexValue? d
  some (((a * 16 + b) * 16 + c) * 16 + d)

def shortEscape? (c : Char) : Option Nat :=
  if c = '"' || c = '\\' || c = '/' then some c.toNat
  else if c = 'b' then some 8
  else if c = 'f' then some 12
  else if c = 'n' then some 10
  else if c = 'r' then some 13
  else if c = 't' then some 9
  else none

/-- A text after its opening quote, up to and without its closing quote. -/
def text? : List Char → Option (JsonText × List Char)
  | [] => none
  | '"' :: rest => some (⟨[], []⟩, rest)
  | '\\' :: 'u' :: a :: b :: c :: d :: rest => do
    let unit ← hexUnit? a b c d
    let (t, rest) ← text? rest
    some (⟨'\\' :: 'u' :: a :: b :: c :: d :: t.raw, unit :: t.units⟩, rest)
  | '\\' :: c :: rest => do
    let unit ← shortEscape? c
    let (t, rest) ← text? rest
    some (⟨'\\' :: c :: t.raw, unit :: t.units⟩, rest)
  | c :: rest =>
    if c.toNat < 0x20 then none
    else do
      let (t, rest) ← text? rest
      some (⟨c :: t.raw, c.toNat :: t.units⟩, rest)

def digits (s : List Char) : List Char × List Char :=
  (s.takeWhile Char.isDigit, s.dropWhile Char.isDigit)

/-- Digits before the point; a zero stands alone. -/
def whole? (s : List Char) : Option (List Char × List Char) :=
  match digits s with
  | ([], _) => none
  | ('0' :: _ :: _, _) => none
  | (whole, rest) => some (whole, rest)

def fraction? (s : List Char) : Option (Option (List Char) × List Char) :=
  match s with
  | '.' :: rest =>
    match digits rest with
    | ([], _) => none
    | (fraction, rest) => some (some fraction, rest)
  | s => some (none, s)

def exponent? (s : List Char) : Option (Option (Bool × List Char) × List Char) :=
  match s with
  | c :: rest =>
    if c = 'e' || c = 'E' then
      let (negative, rest) := match rest with
        | '-' :: rest => (true, rest)
        | '+' :: rest => (false, rest)
        | rest => (false, rest)
      match digits rest with
      | ([], _) => none
      | (power, rest) => some (some (negative, power), rest)
    else some (none, s)
  | [] => some (none, [])

def number? (s : List Char) : Option (JsonNumber × List Char) := do
  let (negative, s) := match s with
    | '-' :: rest => (true, rest)
    | s => (false, s)
  let (whole, s) ← whole? s
  let (fraction, s) ← fraction? s
  let (exponent, s) ← exponent? s
  some (⟨negative, whole, fraction, exponent⟩, s)

mutual

def value? : Nat → List Char → Option (Json × List Char)
  | 0, _ => none
  | fuel + 1, s =>
    match skipSpace s with
    | 'n' :: 'u' :: 'l' :: 'l' :: rest => some (null, rest)
    | 't' :: 'r' :: 'u' :: 'e' :: rest => some (bool true, rest)
    | 'f' :: 'a' :: 'l' :: 's' :: 'e' :: rest => some (bool false, rest)
    | '"' :: rest => (text? rest).map fun (t, rest) => (text t, rest)
    | '[' :: rest =>
      match skipSpace rest with
      | ']' :: rest => some (array [], rest)
      | rest => (items? fuel rest).map fun (items, rest) => (array items, rest)
    | '\x7b' :: rest =>
      match skipSpace rest with
      | '\x7d' :: rest => some (object [], rest)
      | rest => (members? fuel rest).map fun (members, rest) => (object members, rest)
    | s => (number? s).map fun (n, rest) => (number n, rest)

/-- At least one item, up to and without the closing bracket. -/
def items? : Nat → List Char → Option (List Json × List Char)
  | 0, _ => none
  | fuel + 1, s => do
    let (item, s) ← value? fuel s
    match skipSpace s with
    | ']' :: rest => some ([item], rest)
    | ',' :: rest =>
      let (items, rest) ← items? fuel rest
      some (item :: items, rest)
    | _ => none

/-- At least one member, up to and without the closing brace. -/
def members? : Nat → List Char → Option (List (JsonText × Json) × List Char)
  | 0, _ => none
  | fuel + 1, s =>
    match skipSpace s with
    | '"' :: s => do
      let (name, s) ← text? s
      match skipSpace s with
      | ':' :: s =>
        let (value, s) ← value? fuel s
        match skipSpace s with
        | '\x7d' :: rest => some ([(name, value)], rest)
        | ',' :: rest =>
          let (members, rest) ← members? fuel rest
          some ((name, value) :: members, rest)
        | _ => none
      | _ => none
    | _ => none

end

/-- The one value of a text, between blanks. -/
def ofText? (text : String) : Option Json :=
  match value? (text.toList.length + 1) text.toList with
  | some (j, rest) => if (skipSpace rest).isEmpty then some j else none
  | none => none

end CategorizedIndex.Json
