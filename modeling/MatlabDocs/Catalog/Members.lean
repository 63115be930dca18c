import MatlabDocs.Catalog.Load

/-!
# Members

The members of a folder are the folders and source files in it; the members of a class are
its properties and methods. Besides its members, a folder has parts of its own, which hide
members of the same name.
-/

namespace MatlabDocs.Catalog

def setMember (catalog : Catalog) (number : Nat) (name : Text) (entity : Entity) : Catalog :=
  { catalog with
    folders := catalog.folders.modify number fun folder =>
      { folder with members := folder.members.insert name entity } }

/-- What a folder is asked for by a name that is neither its own nor known yet. -/
def loadMember (number : Nat) (package name : Text) : Loads Value := do
  match ← load (package ++ "." ++ name) with
  | none => return .nothing
  | some entity =>
    modify fun catalog => catalog.setMember number name entity
    return .entity entity

def contentsOf (catalog : Catalog) (number : Nat) : List (Text × Value) :=
  match catalog.folder? number with
  | some folder =>
    ("name", .text folder.name) :: ("path", .text folder.path) ::
      ("package", .text folder.package) ::
      folder.members.entries.map fun (name, entity) => (name, .entity entity)
  | none => []

def routineNames : List Text :=
  ["getter", "safe_getmembers", "matlabify", "parse_mfile", "parse_mlappfile",
   "_remove_comment_header", "_remove_line_continuations", "_fix_function_signatures",
   "__init__", "__repr__", "__class__", "__delattr__", "__dir__", "__eq__", "__format__",
   "__ge__", "__getattribute__", "__getstate__", "__gt__", "__hash__", "__init_subclass__",
   "__le__", "__lt__", "__ne__", "__new__", "__reduce__", "__reduce_ex__", "__setattr__",
   "__sizeof__", "__str__", "__subclasshook__"]

/-- What all entities have of the site, which is known when there are pages to write. -/
def sitePart (catalog : Catalog) (owner : Entity) (name : Text) : Value :=
  if catalog.forPages then .internal owner name else .nothing

/-- What a folder has by itself, apart from the list of its members. -/
def ownParts (catalog : Catalog) (number : Nat) (folder : Folder) : List (Text × Value) :=
  ([("__name__", .text folder.name), ("__doc__", .nothing), ("__module__", .nothing),
    ("__file__", .text folder.path), ("__path__", .list [.text folder.path]),
    ("__package__", .text folder.package), ("name", .text folder.name),
    ("path", .text folder.path), ("package", .text folder.package),
    ("basedir", .text catalog.root), ("encoding", .ofText? catalog.encoding),
    ("sphinx_env", catalog.sitePart (.folder number) "sphinx_env"),
    ("sphinx_app", catalog.sitePart (.folder number) "sphinx_app"),
    ("__dict__", .contents number), ("__weakref__", .nothing)] : List (Text × Value)) ++
    routineNames.map fun name => (name, .internal (.folder number) name)

def memberOfFolder (number : Nat) (name : Text) : Loads Value := do
  let catalog ← get
  match catalog.folder? number with
  | none => return .nothing
  | some folder =>
    match (catalog.ownParts number folder).lookup name with
    | some value => return value
    | none =>
      match folder.members.get? name with
      | some entity => return .entity entity
      | none => loadMember number folder.package name

def memberName? (tree : SourceTree) (folder name : Text) : Option Text :=
  let path := Path.join folder name
  if tree.isFolder path then if SourceTree.isVersionFolder name then none else some name
  else if SourceTree.isSourceName name then some (Path.stem name)
  else none

/-- Reads the members one by one; a name that was seen before is passed over. The list of all
members cannot be asked for while it is made. -/
def collectMembers (number : Nat) (found : List (Text × Value)) :
    List Text → Loads (List (Text × Value))
  | [] => return found
  | name :: names => do
    if found.any (·.1 == name) then collectMembers number found names
    else
      if name == "__all__" then throw .circularListing
      let value ← memberOfFolder number name
      collectMembers number (if value.isPresent then found ++ [(name, value)] else found) names

def membersOfFolder (number : Nat) : Loads (List (Text × Value)) := do
  let catalog ← get
  match catalog.folder? number with
  | none => return []
  | some folder =>
    if !catalog.tree.isFolder folder.path then throw .missingFolder
    let names := (catalog.tree.list folder.path).filterMap (memberName? catalog.tree folder.path)
    let found ← collectMembers number [] names
    return found.mergeSort fun a b => SourceTree.nameLe a.1 b.1

def askFolder (number : Nat) (name : Text) : Loads Value := do
  if name == "__all__" then
    return .list ((← membersOfFolder number).map fun (name, _) => .text name)
  else memberOfFolder number name

def propertyOf (owner : Nat) (name : Text) (property : PropertyDef) : Except Fault Value :=
  if property.default?.isNone then .error (.incompleteProperty "default")
  else if property.docstring?.isNone then .error (.incompleteProperty "docstring")
  else .ok (.entity (.property owner name))

theorem propertyOf_cases (owner : Nat) (name : Text) (property : PropertyDef) :
    (∃ part, propertyOf owner name property = .error (.incompleteProperty part)) ∨
      property.default? ≠ none ∧ property.docstring? ≠ none ∧
        propertyOf owner name property = .ok (.entity (.property owner name)) := by
  cases isDefault : property.default? with
  | none => simp [propertyOf, isDefault]
  | some default =>
    cases isDocstring : property.docstring? with
    | none => simp [propertyOf, isDefault, isDocstring]
    | some docstring => simp [propertyOf, isDefault, isDocstring]

/-- The properties and methods of a class. A method takes the place of a property with the same
name. -/
def membersOfClass (owner : Nat) (definition : ClassDef) : Except Fault (NameTable Value) := do
  let properties ← definition.properties.entries.mapM fun (name, property) => do
    return (name, ← propertyOf owner name property)
  let methods := definition.methods.keys.map fun name => (name, Value.entity (.method owner name))
  return (Table.ofList properties).insertAll methods

end MatlabDocs.Catalog
