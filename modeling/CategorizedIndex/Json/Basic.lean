import CategorizedIndex.Number.Layout
import CategorizedIndex.Text.Quoted

/-! # JSON values

The values of a JSON text as they are written. A text keeps its source between the
quotes beside what it denotes, because numbers may serve as keys, and denotes
UTF-16 units or whole characters, because escapes can name half of a character. A
number keeps its digits. Members keep their order and may repeat.
-/
namespace CategorizedIndex

structure JsonText where
  /-- The characters between the quotes. -/
  raw : List Char
  units : List Nat
  deriving DecidableEq

structure JsonNumber where
  negative : Bool
  whole : List Char
  fraction : Option (List Char)
  /-- Whether the exponent is negative, and its digits. -/
  exponent : Option (Bool × List Char)
  deriving DecidableEq

inductive Json
  | null
  | bool (b : Bool)
  | number (n : JsonNumber)
  | text (t : JsonText)
  | array (items : List Json)
  | object (members : List (JsonText × Json))
  deriving Inhabited

namespace JsonText

def isHigh (unit : Nat) : Bool := 0xd800 ≤ unit && unit < 0xdc00

def isLow (unit : Nat) : Bool := 0xdc00 ≤ unit && unit < 0xe000

/-- The characters that units denote; half a character on its own denotes none. -/
def charsOf? : List Nat → Option (List Char)
  | [] => some []
  | a :: rest =>
    if isHigh a then
      match rest with
      | b :: rest =>
        if isLow b then
          (charsOf? rest).map (Char.ofNat (0x10000 + (a - 0xd800) * 0x400 + (b - 0xdc00)) :: ·)
        else none
      | [] => none
    else if isLow a then none
    else (charsOf? rest).map (Char.ofNat a :: ·)

def toString? (t : JsonText) : Option String := (charsOf? t.units).map String.ofList

/-- Quotes, backslashes and controls are escaped, with a letter where there is one. -/
def escape (c : Char) : List Char :=
  if c = '"' || c = '\\' then ['\\', c]
  else if c = '\x08' then ['\\', 'b']
  else if c = '\x0c' then ['\\', 'f']
  else if c = '\n' then ['\\', 'n']
  else if c = '\r' then ['\\', 'r']
  else if c = '\t' then ['\\', 't']
  else if c.toNat < 0x20 then
    ['\\', 'u'] ++ Text.filled 4 (Text.hexDigits c.toNat)
  else [c]

def ofString (s : String) : JsonText :=
  ⟨s.toList.flatMap escape, s.toList.map Char.toNat⟩

end JsonText

namespace JsonNumber

def ofNat (n : Nat) : JsonNumber := ⟨false, Text.decimal n, none, none⟩

def toChars (n : JsonNumber) : List Char :=
  (if n.negative then ['-'] else []) ++ n.whole ++
    (match n.fraction with
      | some digits => '.' :: digits
      | none => []) ++
    match n.exponent with
      | some (negative, digits) => ['e', if negative then '-' else '+'] ++ digits
      | none => []

/-- The parts of a finite number as `NumberLayout.data` sets it. -/
def ofNumber (x : Number) : JsonNumber :=
  let d := x.shortest .toEven
  let power := d.pointPlace - 1
  let parts (body : List Char) : List Char × Option (List Char) :=
    (body.takeWhile (· ≠ '.'), some ((body.dropWhile (· ≠ '.')).drop 1))
  if d.digits = 0 || NumberLayout.data.positional power then
    let (whole, fraction) := parts (d.setPositional true)
    ⟨x.isNegative, whole, fraction, none⟩
  else
    ⟨x.isNegative, d.digitChars.take 1,
      if (d.digitChars.drop 1).isEmpty then none else some (d.digitChars.drop 1),
      some (power < 0, Text.decimal power.natAbs)⟩

end JsonNumber

namespace Json

def ofString (s : String) : Json := text (.ofString s)

/-- Numbers without a decimal form are null. -/
def ofNumber (x : Number) : Json := if x.isFinite then number (.ofNumber x) else null

def ofNat (n : Nat) : Json := number (.ofNat n)

def ofFields (fields : List (String × Json)) : Json :=
  object (fields.map fun (name, value) => (.ofString name, value))

mutual

def toChars : Json → List Char
  | null => "null".toList
  | bool true => "true".toList
  | bool false => "false".toList
  | number n => n.toChars
  | text t => '"' :: (t.raw ++ ['"'])
  | array items => '[' :: (itemsToChars items ++ [']'])
  | object members => '\x7b' :: (membersToChars members ++ ['\x7d'])

def itemsToChars : List Json → List Char
  | [] => []
  | [item] => toChars item
  | item :: rest => toChars item ++ ',' :: itemsToChars rest

def membersToChars : List (JsonText × Json) → List Char
  | [] => []
  | [(name, value)] => '"' :: (name.raw ++ '"' :: ':' :: toChars value)
  | (name, value) :: rest =>
    '"' :: (name.raw ++ '"' :: ':' :: (toChars value ++ ',' :: membersToChars rest))

end

def toText (j : Json) : String := String.ofList j.toChars

end Json

end CategorizedIndex
