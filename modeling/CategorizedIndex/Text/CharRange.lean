/-! # Sets of characters given by ranges

A property of characters is a list of closed ranges of code points.
-/
namespace CategorizedIndex.Text

abbrev CharRanges := List (Nat × Nat)

def CharRanges.contains (ranges : CharRanges) (c : Char) : Bool :=
  ranges.any fun range => range.1 ≤ c.toNat && c.toNat ≤ range.2

end CategorizedIndex.Text
