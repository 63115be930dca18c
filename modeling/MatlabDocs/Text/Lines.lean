import MatlabDocs.Text.Basic

/-!
# Lines

A line ends at a line feed, a carriage return, the two of them together, one of the
other vertical controls and separators, or at the end of the text.
-/

namespace MatlabDocs

def lineBreakRanges : List (Nat × Nat) :=
  [(0xA, 0xD), (0x1C, 0x1E), (0x85, 0x85), (0x2028, 0x2029)]

def isLineBreak (c : Char) : Bool :=
  inRanges lineBreakRanges c

namespace Text

def fullLines : Text → List Text
  | [] => []
  | '\r' :: '\n' :: rest => ['\r', '\n'] :: fullLines rest
  | c :: rest =>
    if isLineBreak c then [c] :: fullLines rest
    else
      match fullLines rest with
      | [] => [[c]]
      | line :: lines => (c :: line) :: lines

def lines (text : Text) : List Text :=
  (fullLines text).map (trimRight isLineBreak)

/-- Copies the text with each tab filled up with blanks to the next multiple of `width`;
the first character stands in column `column`. -/
def expandTabsFrom (width column : Nat) : Text → Text
  | [] => []
  | c :: rest =>
    if c = '\t' then
      let filled := width - column % width
      List.replicate filled ' ' ++ expandTabsFrom width (column + filled) rest
    else if c = '\n' || c = '\r' then c :: expandTabsFrom width 0 rest
    else c :: expandTabsFrom width (column + 1) rest

def expandTabs (width : Nat) (text : Text) : Text :=
  expandTabsFrom width 0 text

end Text

end MatlabDocs
