import MatlabDocs.Text.Range

/-!
# Blank characters

White space in the wide sense: the controls that separate text, the spaces of all
widths, and the line and paragraph separators.
-/

namespace MatlabDocs

def blankRanges : List (Nat × Nat) :=
  [(0x9, 0xD), (0x1C, 0x20), (0x85, 0x85), (0xA0, 0xA0), (0x1680, 0x1680), (0x2000, 0x200A),
   (0x2028, 0x2029), (0x202F, 0x202F), (0x205F, 0x205F), (0x3000, 0x3000)]

def isBlank (c : Char) : Bool :=
  inRanges blankRanges c

/-- A blank or a tab, the white space that stays within a line. -/
def isIndent (c : Char) : Bool :=
  c == ' ' || c == '\t'

end MatlabDocs
