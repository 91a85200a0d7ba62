import CategorizedIndex.Text.Digits
import CategorizedIndex.Yaml.Source
import CategorizedIndex.Yaml.Token

/-! # Names, tags and directives in YAML source

Each reader takes the source from the start of a word and returns what the word says
and the source behind it.
-/
namespace CategorizedIndex.Yaml.Source

def endsName (c : Char) : Bool :=
  endsWord c || ['?', ':', ',', ']', '\x7d', '%', '@', '\x60'].contains c

def name? (s : Source) : Option (String × Source) :=
  let (name, rest) := s.spanChars isNameChar
  if name.isEmpty || !endsName rest.head then none else some (String.ofList name, rest)

/-! ## Tags -/

/-- The characters of addresses. Separators of collections count only where the
address has brackets of its own. -/
def isAddressChar (bracketed : Bool) (c : Char) : Bool :=
  isNameChar c ||
    [ ';', '/', '?', ':', '@', '&', '=', '+', '$', '.', '!', '~', '*', '\x27', '(',
      ')' ].contains c ||
    (bracketed && [',', '[', ']'].contains c)

/-- The number of octets that follow the first octet of a character. -/
def trailingOctets? (octet : UInt8) : Option Nat :=
  if octet &&& 0x80 = 0 then some 0
  else if octet &&& 0xe0 = 0xc0 then some 1
  else if octet &&& 0xf0 = 0xe0 then some 2
  else if octet &&& 0xf8 = 0xf0 then some 3
  else none

/-- The octets that remain after one, of which `due` are still due. -/
def dueAfter? (due : Nat) (octet : UInt8) : Option Nat :=
  if due = 0 then trailingOctets? octet
  else if octet &&& 0xc0 = 0x80 then some (due - 1)
  else none

/-- Octets stand as characters or as a percent sign with two digits. -/
def addressOctets? (bracketed : Bool) (due : Nat) : Source → Option (Octets × Source)
  | [] => some ([], [])
  | g :: rest =>
    if g.char = '%' then
      match rest with
      | a :: b :: rest => do
        let octet := UInt8.ofNat (16 * (← Text.hexValue? a.char) + (← Text.hexValue? b.char))
        let (octets, rest) ← addressOctets? bracketed (← dueAfter? due octet) rest
        some (octet :: octets, rest)
      | _ => none
    else if due ≠ 0 then none
    else if isAddressChar bracketed g.char then
      (addressOctets? bracketed 0 rest).map fun (octets, rest) =>
        (UInt8.ofNat g.char.toNat :: octets, rest)
    else some ([], g :: rest)

/-- What follows a null octet does not count. -/
def untilNull (octets : Octets) : Octets := octets.takeWhile (· ≠ 0)

def address? (bracketed : Bool) (s : Source) : Option (Octets × Source) := do
  let (octets, rest) ← s.addressOctets? bracketed 0
  if octets.isEmpty then none else some (untilNull octets, rest)

def handle (s : Source) : List Char × Source :=
  let (name, rest) := (s.skip 1).spanChars isNameChar
  if rest.head = '!' then ('!' :: name ++ ['!'], rest.skip 1) else ('!' :: name, rest)

def isNamedHandle (handle : List Char) : Bool :=
  2 ≤ handle.length && handle.getLast? = some '!'

/-- A whole address in brackets, a handle with an address, or a lone mark. -/
def tagWord? (s : Source) : Option (Token × Source) :=
  if s.ahead 1 = '<' then do
    let (octets, rest) ← (s.skip 2).address? true
    if rest.head = '>' then some (.tag [] octets, rest.skip 1) else none
  else
    let (handle, rest) := s.handle
    if isNamedHandle handle then do
      let (octets, rest) ← rest.address? false
      some (.tag handle octets, rest)
    else do
      let (octets, rest) ← rest.addressOctets? false 0
      let octets := untilNull (Octets.ofChars (handle.drop 1) ++ octets)
      some (if octets.isEmpty then .tag [] (Octets.ofChars ['!']) else .tag ['!'] octets, rest)

def tag? (flow : Bool) (s : Source) : Option (Token × Source) := do
  let (token, rest) ← s.tagWord?
  if endsWord rest.head || (flow && rest.head = ',') then some (token, rest) else none

/-! ## Directives -/

def number? (s : Source) : Option (Nat × Source) :=
  let (digits, rest) := s.spanChars Char.isDigit
  if digits.isEmpty || 9 < digits.length then none else some (Text.digitsValue digits, rest)

def version? (s : Source) : Option (Token × Source) := do
  let (major, rest) ← s.skipBlanks.number?
  if rest.head = '.' then
    let (minor, rest) ← (rest.skip 1).number?
    some (.version major minor, rest)
  else none

def tagHandle? (s : Source) : Option (Token × Source) := do
  let s := s.skipBlanks
  let (handle, rest) := s.handle
  if s.head = '!' && (handle = ['!'] || isNamedHandle handle) && isBlank rest.head then
    let (octets, rest) ← rest.skipBlanks.address? true
    if endsWord rest.head then some (.tagHandle handle octets, rest) else none
  else none

def directive? (s : Source) : Option (Token × Source) := do
  let (name, rest) := (s.skip 1).spanChars isNameChar
  let (token, rest) ←
    if !endsWord rest.head then none
    else if name = ['Y', 'A', 'M', 'L'] then rest.version?
    else if name = ['T', 'A', 'G'] then rest.tagHandle?
    else none
  some (token, ← rest.restOfLine?)

end CategorizedIndex.Yaml.Source
