import MatlabDocs.Text.Basic

/-!
# Package names

A folder whose name starts with a plus sign is a package. The sign may be left out when a
name is shown.
-/

namespace MatlabDocs

def withoutPackageSigns (name : Text) : Text :=
  Text.joinWith "." ((name.splitOn '.').map fun part => part.dropWhile (· == '+'))

end MatlabDocs
