import MatlabDocs.Text.Lines

/-!
# Docstrings on pages

A docstring is cut into lines, and the indentation that its lines share is taken off them.
The first line stands by itself.
-/

namespace MatlabDocs.Docstring

def indentation (line : Text) : Nat :=
  (line.takeWhile isBlank).length

/-- The indentation that all lines share; blank lines have none. -/
def margin (lines : List Text) : Nat :=
  match (lines.filter fun line => !line.all isBlank).map indentation with
  | [] => 0
  | first :: rest => rest.foldl min first

def prepare (docstring : Text) : List Text :=
  let lines : List Text := match (docstring.expandTabs 8).lines with
    | [] => []
    | first :: rest => first.dropWhile isBlank :: rest.map (List.drop (margin rest))
  let started := lines.dropWhile (· = [])
  match started.getLast? with
  | some [] => started
  | some _ => started ++ [[]]
  | none => []

end MatlabDocs.Docstring
