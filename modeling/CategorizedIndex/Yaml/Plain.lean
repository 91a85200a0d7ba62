import CategorizedIndex.Number.Read

/-! # Meanings of plain text

Text without quotes may stand for null, a truth value or a number. A text that does
needs quotes to be read as itself.
-/
namespace CategorizedIndex.Yaml.Plain

def isNull (s : String) : Bool := ["null", "Null", "NULL", "~"].contains s

def bool? (s : String) : Option Bool :=
  ([ ("true", true), ("True", true), ("TRUE", true), ("false", false), ("False", false),
     ("FALSE", false) ] : List (String × Bool)).lookup s

/-- Numbers that no digits write. -/
def isNumberWord (s : String) : Bool :=
  [ ".inf", ".Inf", ".INF", "+.inf", "+.Inf", "+.INF", "-.inf", "-.Inf", "-.INF", ".nan",
    ".NaN", ".NAN" ].contains s

def digitsOf? (radix : Nat) (digits : List Char) : Option Nat :=
  if digits.isEmpty then none
  else digits.foldlM (fun total c => do
    let digit ← Text.hexValue? c
    if digit < radix then some (total * radix + digit) else none) 0

/-- Whether a text is an integer of 128 bits in base 16, 8 or 2. -/
def isRadixInteger (s : String) : Bool :=
  let (negative, body) := match s.toList with
    | '-' :: body => (true, body)
    | '+' :: body => (false, body)
    | body => (false, body)
  match body with
  | '0' :: letter :: digits =>
    match [('x', 16), ('o', 8), ('b', 2)].lookup letter with
    | some radix =>
      let limit := if negative then Nat.pow 2 127 else Nat.pow 2 128 - 1
      (digitsOf? radix digits).any (· ≤ limit)
    | none => false
  | _ => false

/-- Zeros in front change nothing here, though such a text is no number either. -/
def isNumber (s : String) : Bool :=
  isNumberWord s || isRadixInteger s || (Number.ofText? s).any (·.isFinite)

def isText (s : String) : Bool :=
  !(s.isEmpty || isNull s || (bool? s).isSome || isNumber s)

end CategorizedIndex.Yaml.Plain
