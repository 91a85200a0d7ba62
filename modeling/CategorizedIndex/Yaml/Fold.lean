import CategorizedIndex.Yaml.Source
import CategorizedIndex.Yaml.Token

/-! # Folding of lines

The text of a scalar that spans lines. In plain and quoted scalars one break
becomes a space, of several the first is dropped, and blanks around breaks do not
count; a break that is escaped leaves nothing. Block scalars keep their lines or
fold those that neither start with a blank nor follow such a line.
-/
namespace CategorizedIndex.Yaml

/-- A part of a plain or quoted scalar. -/
inductive Piece
  | char (c : Char)
  | blank (c : Char)
  | lineBreak (c : Char)
  | joint
  deriving DecidableEq

/-- What stands between two words: blanks on one line, or breaks, the first of
which is missing when it was escaped. -/
inductive Gap
  | blanks (cs : List Char)
  | breaks (first : Option Char) (more : List Char)
  deriving DecidableEq

namespace Gap

def empty : Gap := blanks []

def text : Gap → List Char
  | blanks cs => cs
  | breaks none more => more
  | breaks (some '\n') [] => [' ']
  | breaks (some '\n') more => more
  | breaks (some c) more => c :: more

def addBlank (c : Char) : Gap → Gap
  | blanks cs => blanks (cs ++ [c])
  | breaks first more => breaks first more

def addBreak (c : Char) : Gap → Gap
  | blanks _ => breaks (some c) []
  | breaks first more => breaks first (more ++ [c])

end Gap

/-- The text of pieces after a gap. -/
def folded (gap : Gap) : List Piece → List Char
  | [] => gap.text
  | .char c :: rest => gap.text ++ c :: folded .empty rest
  | .blank c :: rest => folded (gap.addBlank c) rest
  | .lineBreak c :: rest => folded (gap.addBreak c) rest
  | .joint :: rest => gap.text ++ folded (.breaks none []) rest

/-- Which breaks at the end of a block scalar remain. -/
inductive Chomping
  | strip
  | clip
  | keep
  deriving DecidableEq

/-- A line of a block scalar without its indentation, and its break, if any. -/
structure BlockLine where
  content : List Char
  lineBreak : Option Char
  deriving DecidableEq

/-- The place between two lines of a block scalar: the break of the last line that
has content, the breaks of empty lines since, and whether that line started with
a blank. -/
structure Seam where
  lineBreak : Option Char
  emptyLines : List Char
  afterBlank : Bool

namespace Seam

def start : Seam := ⟨none, [], false⟩

def text (style : Style) (seam : Seam) (beforeBlank : Bool) : List Char :=
  if style = .folded && seam.lineBreak = some '\n' && !seam.afterBlank && !beforeBlank then
    if seam.emptyLines.isEmpty then [' '] else seam.emptyLines
  else seam.lineBreak.toList ++ seam.emptyLines

def chomped (chomping : Chomping) (seam : Seam) : List Char :=
  match chomping with
  | .strip => []
  | .clip => seam.lineBreak.toList
  | .keep => seam.lineBreak.toList ++ seam.emptyLines

end Seam

def blockText (style : Style) (chomping : Chomping) (seam : Seam) : List BlockLine → List Char
  | [] => seam.chomped chomping
  | ⟨[], lineBreak⟩ :: rest =>
    blockText style chomping
      { seam with emptyLines := seam.emptyLines ++ lineBreak.toList } rest
  | ⟨c :: content, lineBreak⟩ :: rest =>
    seam.text style (isBlank c) ++ c :: content ++
      blockText style chomping ⟨lineBreak, [], isBlank c⟩ rest

end CategorizedIndex.Yaml
