import MatlabDocs.Text.Basic

/-!
# Paths

A path is a text with slashes between the names of folders. Two paths may mean the same
place: empty names and single dots are passed over. A path that starts with a slash is taken
from the top of all folders on, another one from the working folder on.
-/

namespace MatlabDocs.Path

/-- The path of something in a folder. A name that starts with a slash stands for itself. -/
def join (folder name : Text) : Text :=
  if name.startsWith "/" then name
  else if folder = [] || folder.endsWith "/" then folder ++ name
  else folder ++ "/" ++ name

/-- Splits a path after its last slash; slashes at the end of the first part are dropped unless
it holds nothing else. -/
def split (path : Text) : Text × Text :=
  let front := Text.trimRight (· != '/') path
  let folder := Text.trimRight (· == '/') front
  (if folder = [] then front else folder, path.drop front.length)

def ofDotted (name : Text) : Text :=
  name.map fun c => if c = '.' then '/' else c

/-- The names along a path behind those at its start, each `..` taking back the one before it;
above the top there is nothing. -/
def steps (start names : List Text) : List Text :=
  names.foldl (fun taken name =>
    if name = [] || name == "." then taken
    else if name == ".." then taken.dropLast
    else taken ++ [name]) start

/-- The place that a path means, as the names of the folders that lead to it from the top. The
empty path leads nowhere. -/
def place? (workingFolder : List Text) (path : Text) : Option (List Text) :=
  if path = [] then none
  else some (steps (if path.startsWith "/" then [] else workingFolder) (path.splitOn '/'))

/-- The name of a file without its extension. Dots at its start belong to the name. -/
def stem (name : Text) : Text :=
  let dots := name.takeWhile (· == '.')
  match Text.splitLast? '.' (name.drop dots.length) with
  | some (front, _) => dots ++ front
  | none => name

end MatlabDocs.Path
