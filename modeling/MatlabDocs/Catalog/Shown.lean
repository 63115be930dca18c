import MatlabDocs.Catalog.Members

/-!
# Shown values

How values are shown in a document: texts are quoted, and mappings are ordered by name.
-/

namespace MatlabDocs.Catalog

def shownInLine (catalog : Catalog) (entity : Entity) : Text :=
  (catalog.shown entity).map fun c => if c = '\n' then ' ' else c

/-- The type from which an entity has a routine that it runs on itself. -/
def originOf (catalog : Catalog) (owner : Entity) (name : Text) : Text :=
  let type := catalog.typeName owner
  if name == "__repr__" then "MatObject"
  else if name == "getter" then
    if type == "MatModule" || type == "MatFunction" then type
    else if type == "MatMethod" then "MatFunction"
    else "MatObject"
  else type

/-- What is internal as it is shown; the routines that an entity runs on itself show it. -/
def shownInternal (catalog : Catalog) (owner : Entity) (name : Text) : Text :=
  if (["getter", "safe_getmembers", "reset_tokens", "__init__", "__repr__"] : List Text).contains
      name then
    "<bound method " ++ catalog.originOf owner name ++ "." ++ name ++ " of " ++
      catalog.shownInLine owner ++ ">"
  else if name == "__class__" then
    "<class '" ++ libraryModule ++ "." ++ catalog.typeName owner ++ "'>"
  else "<function MatObject." ++ name ++ ">"

def shownMapping (entries : List (Text × Text)) : Text :=
  let ordered := entries.mergeSort fun a b => SourceTree.nameLe a.1 b.1
  "\x7b" ++ Text.joinWith ", " (ordered.map fun (name, value) => name.quoted ++ ": " ++ value) ++
    "\x7d"

def shownContents (catalog : Catalog) (number : Nat) : Text :=
  shownMapping ((catalog.contentsOf number).map fun
    | (name, .text value) => (name, value.quoted)
    | (name, .entity entity) => (name, catalog.shownInLine entity)
    | (name, _) => (name, ""))

mutual

def shownValue (catalog : Catalog) : Value → Text
  | .nothing => "None"
  | .flag true => "True"
  | .flag false => "False"
  | .number value => Text.ofInt value
  | .text value => value.quoted
  | .list values => "[" ++ Text.joinWith ", " (catalog.shownValues values) ++ "]"
  | .mapping entries => shownMapping (catalog.shownEntries entries)
  | .contents number => catalog.shownContents number
  | .internal owner name => catalog.shownInternal owner name
  | .entity entity => catalog.shownInLine entity

def shownValues (catalog : Catalog) : List Value → List Text
  | [] => []
  | value :: values => catalog.shownValue value :: catalog.shownValues values

def shownEntries (catalog : Catalog) : List (Text × Value) → List (Text × Text)
  | [] => []
  | (name, value) :: entries => (name, catalog.shownValue value) :: catalog.shownEntries entries

end

end MatlabDocs.Catalog
