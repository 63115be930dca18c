import MatlabDocs.Text.Lines

/-!
# Comment headers

The comment lines and empty lines above the first line of code.
-/

namespace MatlabDocs

def isHeaderLine (line : Text) : Bool :=
  match line.dropWhile isIndent with
  | c :: _ => c == '%' || c == '\n'
  | [] => false

def headerLength (code : Text) : Nat :=
  (code.fullLines.takeWhile isHeaderLine).length

/-- The code below the header. The header is cut off after as many line feeds as it has
lines, so nothing is left if there are fewer. -/
def dropHeader (code : Text) : Text :=
  (code.afterSeparators? '\n' (headerLength code)).getD []

end MatlabDocs
