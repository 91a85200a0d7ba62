/-! # Blank characters and fields

The Unicode property White_Space, trimming at both ends of a text, and the cut
of a text into the fields between separators. Cutting never loses a character:
joining the fields with the separator gives the text back.
-/
namespace CategorizedIndex.Text

/-- The Unicode property White_Space. -/
def isBlank (c : Char) : Bool :=
  let n := c.toNat
  (0x09 ≤ n && n ≤ 0x0d) || n == 0x20 || n == 0x85 || n == 0xa0 || n == 0x1680 ||
    (0x2000 ≤ n && n ≤ 0x200a) || n == 0x2028 || n == 0x2029 || n == 0x202f || n == 0x205f ||
    n == 0x3000

def trimLeft (s : List Char) : List Char := s.dropWhile isBlank

def trim (s : List Char) : List Char := (trimLeft (trimLeft s).reverse).reverse

/-- The parts between separators; a text without separators is one field. -/
def fields (separator : Char) : List Char → List (List Char)
  | [] => [[]]
  | c :: rest =>
    if c = separator then [] :: fields separator rest
    else match fields separator rest with
      | [] => [[c]]
      | field :: more => (c :: field) :: more

def joined (separator : List Char) (parts : List (List Char)) : List Char :=
  separator.intercalate parts

theorem fields_ne_nil (separator : Char) (s : List Char) : fields separator s ≠ [] := by
  cases s with
  | nil => simp [fields]
  | cons c rest =>
    unfold fields
    split
    · simp
    · split <;> simp

end CategorizedIndex.Text
