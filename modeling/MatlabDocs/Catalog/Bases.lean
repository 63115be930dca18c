import MatlabDocs.Catalog.Members

/-!
# Base classes

The base classes of a class are looked for in the whole tree: as members of the folders that
have been loaded, and as files named like them.
-/

namespace MatlabDocs.Catalog

/-- Asks a loaded folder for a base class, by its name and then by its name without the
characters of the folder's name in front. -/
def baseInFolder (number : Nat) (folderName base : Text) : Loads Value := do
  let direct ← askFolder number base
  if direct.isPresent then return direct
  let letters := folderName.dropWhile (· == '+')
  askFolder number (base.dropWhile letters.contains)

def packageIn (rootModule name : Text) : Text :=
  (rootModule ++ "." ++ name).dropWhile (· == '.')

def baseInFolders (rootModule base : Text) : List Text → Loads (Option Value)
  | [] => return none
  | name :: names => do
    match (← get).modules.get? (packageIn rootModule name) with
    | none => baseInFolders rootModule base names
    | some number =>
      let found ← baseInFolder number name base
      if found.isPresent then return some found
      baseInFolders rootModule base names

def baseFile? (tree : SourceTree) (visit : SourceTree.Visit) (base : Text) : Option SourceFile :=
  let fileName := base ++ ".m"
  if visit.files.contains fileName then tree.file? (Path.join visit.path fileName) else none

/-- Looks for one base class among the files of a visited folder. A file is only taken if nothing
was found before. -/
def baseInFiles (visit : SourceTree.Visit) (found : NameTable Value) (base : Text) :
    Loads (NameTable Value) := do
  if ((found.get? base).getD .nothing).isPresent then return found
  match baseFile? (← get).tree visit base with
  | none => return found
  | some file =>
    let entity ← enter (Definition.ofBytes base visit.path none file.bytes)
    return found.insert base (.entity entity)

/-- Looks for one base class in a visited folder. What is found in a loaded folder replaces what
was found before. -/
def findBase (rootModule : Text) (visit : SourceTree.Visit) (found : NameTable Value)
    (base : Text) : Loads (NameTable Value) := do
  match ← baseInFolders rootModule base visit.folders with
  | some value => return found.insert base value
  | none => baseInFiles visit found base

def moduleAt (root path : Text) : Text :=
  Text.joinWith "." ((path.splitOn '/').drop (root.splitOn '/').length)

def basesOf (definition : ClassDef) : Loads (List (Text × Value)) := do
  let catalog ← get
  let start : NameTable Value := Table.ofList (definition.bases.map (·, .nothing))
  let found ← (catalog.tree.walk catalog.root).foldlM (fun found visit =>
    definition.bases.foldlM (findBase (moduleAt catalog.root visit.path) visit) found) start
  return found.entries

/-- The module of a value as it is known to readers; things that are no part of a module belong
to the library itself. -/
def linkModule (catalog : Catalog) : Value → Except Fault Text
  | .entity entity => .ok ((catalog.moduleOf? entity).getD libraryModule)
  | .internal _ _ => .ok libraryModule
  | _ => .error .noModule

/-- A link to a class in a module. Inside a package the sign of the package is put in front. -/
def linkTo (module base : Text) : Text :=
  if module.startsWith "+" then ":class:`+" ++ base ++ "`"
  else ":class:`" ++ module ++ "." ++ base ++ "`"

def baseLink (catalog : Catalog) (base : Text) (value : Value) : Except Fault Text := do
  if !value.isPresent then return ":class:`" ++ base ++ "`"
  return linkTo (← catalog.linkModule value) base

def baseLinks (definition : ClassDef) : Loads (List Text) := do
  let bases ← basesOf definition
  let catalog ← get
  (bases.mapM fun (base, value) => catalog.baseLink base value : Except Fault (List Text))

end MatlabDocs.Catalog
