import MatlabDocs.Definition.File
import MatlabDocs.SourceTree.Basic

/-!
# The catalog

The catalog holds what has been loaded from a source tree: folders, which stand for modules,
and the definitions in files. A folder remembers its members, so each member is read once.
-/

namespace MatlabDocs

/-- Something that can be documented. A folder or a definition is known by its number in the
catalog, a method or property by its class and its name. -/
inductive Entity where
  | folder (number : Nat)
  | definition (number : Nat)
  | method (owner : Nat) (name : Text)
  | property (owner : Nat) (name : Text)
  deriving DecidableEq, Repr

/-- What a name may stand for. The contents of a folder are what is loaded of it at the time they
are looked at. What is internal belongs to the library itself and comes with every entity. -/
inductive Value where
  | nothing
  | flag (value : Bool)
  | number (value : Int)
  | text (value : Text)
  | list (values : List Value)
  | mapping (entries : List (Text × Value))
  | contents (folder : Nat)
  | internal (owner : Entity) (name : Text)
  | entity (entity : Entity)
  deriving Inhabited

namespace Value

def isPresent : Value → Bool
  | nothing => false
  | flag value => value
  | number value => value != 0
  | text value => !value.isEmpty
  | list values => !values.isEmpty
  | mapping entries => !entries.isEmpty
  | contents _ => true
  | internal _ _ => true
  | entity _ => true

def plainType : Value → Text
  | nothing => "NoneType"
  | flag _ => "bool"
  | number _ => "int"
  | text _ => "str"
  | list _ => "list"
  | mapping _ => "dict"
  | contents _ => "dict"
  | internal _ _ => "method"
  | entity _ => "MatObject"

def ofText? : Option Text → Value
  | some value => text value
  | none => nothing

end Value

/-- A loaded folder: its own name, its path, the dotted name of its module, and the members that
have been read. -/
structure Folder where
  name : Text
  path : Text
  package : Text
  members : NameTable Entity := {}
  deriving Repr

/-- The docstrings of the members of a module by namespace and name, and the numbers of the
members in the order in which they are found. What stands for a docstring need not be a text. -/
structure MemberDocs where
  docstrings : Table (Text × Text) Value := {}
  order : NameTable Nat := {}
  found : Nat := 0

structure Analysis where
  module : Text
  docs : Option MemberDocs := none

/-- `modules` says by its dotted name which of the folders a module is. `analyses` are kept by
the path of the folder. `analyzed` says for each module that was asked for where its analysis
is, or that there was none. -/
structure Catalog where
  tree : SourceTree
  root : Text
  encoding : Option Text := none
  /-- Things are loaded for the pages of a site. -/
  forPages : Bool := false
  definitions : List Definition := []
  folders : List Folder := []
  modules : NameTable Nat := {}
  analyses : NameTable Analysis := {}
  analyzed : NameTable (Option Text) := {}
  notices : List Notice := []

/-- What works on the catalog. A fault leaves what was loaded before it. -/
abbrev Loads := ExceptT Fault (StateM Catalog)

namespace Catalog

def definition? (catalog : Catalog) (number : Nat) : Option Definition :=
  catalog.definitions[number]?

def folder? (catalog : Catalog) (number : Nat) : Option Folder :=
  catalog.folders[number]?

def class? (catalog : Catalog) (number : Nat) : Option ClassDef :=
  match catalog.definition? number with
  | some (.class definition) => some definition
  | _ => none

def classOf? (catalog : Catalog) : Value → Option (Nat × ClassDef)
  | .entity (.definition number) => (catalog.class? number).map (number, ·)
  | _ => none

def method? (catalog : Catalog) (owner : Nat) (name : Text) : Option MethodDef :=
  (catalog.class? owner).bind fun definition => definition.methods.get? name

def property? (catalog : Catalog) (owner : Nat) (name : Text) : Option PropertyDef :=
  (catalog.class? owner).bind fun definition => definition.properties.get? name

def typeName (catalog : Catalog) : Entity → Text
  | .folder _ => "MatModule"
  | .method _ _ => "MatMethod"
  | .property _ _ => "MatProperty"
  | .definition number =>
    match catalog.definition? number with
    | some (.function _) => "MatFunction"
    | some (.class _) => "MatClass"
    | some (.script _) => "MatScript"
    | some (.application _) => "MatApplication"
    | none => ""

def typeOf (catalog : Catalog) : Value → Text
  | .entity entity => catalog.typeName entity
  | value => value.plainType

def nameOf (catalog : Catalog) : Entity → Text
  | .folder number => ((catalog.folder? number).map Folder.name).getD []
  | .method _ name => name
  | .property _ name => name
  | .definition number =>
    match catalog.definition? number with
    | some (.function definition) => definition.name.getD []
    | some (.class definition) => definition.name
    | some (.script definition) => definition.name
    | some (.application definition) => definition.name
    | none => []

def shown (catalog : Catalog) (entity : Entity) : Text :=
  "<" ++ catalog.typeName entity ++ ": \"" ++ catalog.nameOf entity ++ "\">"

/-- The module that an entity belongs to; folders and properties do not say. -/
def moduleOf? (catalog : Catalog) : Entity → Option Text
  | .folder _ => none
  | .property _ _ => none
  | .method owner name => (catalog.method? owner name).map (·.signature.module)
  | .definition number =>
    (catalog.definition? number).map fun
      | .function definition => definition.module
      | .class definition => definition.module
      | .script definition => definition.module
      | .application definition => definition.module

/-- The module that is named for things that are no part of a module. -/
def libraryModule : Text :=
  "sphinxcontrib.mat_types"

/-- The docstring of a value. Folders, plain values and some properties have none. -/
def docstringOf (catalog : Catalog) : Value → Option Text
  | .entity (.property owner name) =>
    (catalog.property? owner name).bind fun property => property.docstring?.getD none
  | .entity (.method owner name) => (catalog.method? owner name).map (·.signature.docstring)
  | .entity (.definition number) =>
    (catalog.definition? number).map fun
      | .function definition => definition.docstring
      | .class definition => definition.docstring
      | .script definition => definition.docstring
      | .application definition => definition.docstring
  | _ => none

/-- What a member of a module has for a docstring. Plain values have none; a folder has one if a
member of it that is called so has been loaded. -/
def docstringPart? (catalog : Catalog) : Value → Option Value
  | .entity (.definition number) =>
    some (.ofText? (catalog.docstringOf (.entity (.definition number))))
  | .entity (.folder number) =>
    ((catalog.folder? number).bind fun folder => folder.members.get? "docstring").map .entity
  | _ => none

end Catalog

end MatlabDocs
