import CategorizedIndex.Text.Blank
import CategorizedIndex.Text.Digits

/-! # Positions

A position is the list of ranks that leads from the top level to an entry. Written,
its ranks are joined by a separator; read, every part may stand between blanks and
carry a plus sign, and must be a machine word other than zero.
-/
namespace CategorizedIndex

abbrev Position := List Nat

namespace Position

def toText (p : Position) (separator : Char) : String :=
  String.ofList (Text.joined [separator] (p.map Text.decimal))

def maxRank : Nat := 0xffffffffffffffff

def readRank? (part : List Char) : Option Nat :=
  let digits := match Text.trim part with
    | '+' :: digits => digits
    | digits => digits
  if digits.isEmpty || !digits.all Char.isDigit then none
  else
    let n := Text.digitsValue digits
    if n = 0 || maxRank < n then none else some n

def ofText? (text : String) (separator : Char) : Option Position :=
  if text.toList.all Text.isBlank then none
  else (Text.fields separator text.toList).mapM readRank?

/-- Lexicographic order, which is the order of the tree. -/
def cmp (a b : Position) : Ordering := compare a b

end Position

end CategorizedIndex
