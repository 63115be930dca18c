import MatlabDocs.Catalog.Bases

/-!
# Asking entities

Every entity answers to names. Folders and classes know their members; the others know their
own name, and functions also their docstring and their module.
-/

namespace MatlabDocs.Catalog

def askClass (number : Nat) (definition : ClassDef) (name : Text) : Loads Value := do
  if name == "__name__" then return .text definition.name
  else if name == "__doc__" then return .text definition.docstring
  else if name == "__module__" then return .text definition.module
  else if name == "__bases__" then return .mapping (← basesOf definition)
  else
    match definition.properties.get? name, definition.methods.get? name with
    | some property, _ => propertyOf number name property
    | none, some _ => return .entity (.method number name)
    | none, none =>
      if name == "__dict__" then return .mapping (← membersOfClass number definition).entries
      else return .nothing

def askFunction (definition : FunctionDef) (name : Text) : Value :=
  if name == "__name__" then .ofText? definition.name
  else if name == "__doc__" then .text definition.docstring
  else if name == "__module__" then .text definition.module
  else .nothing

/-- The answer of an entity that only knows its name; the caller may say what is answered to
other names. -/
def askNamed (ownName name : Text) (defaults : List Value) : Value :=
  if name == "__name__" then .text ownName
  else
    match defaults with
    | [] => .nothing
    | [only] => only
    | several => .list several

def ask (entity : Entity) (name : Text) (defaults : List Value) : Loads Value := do
  let catalog ← get
  match entity with
  | .folder number => askFolder number name
  | .method owner methodName =>
    match catalog.method? owner methodName with
    | some method => return askFunction method.signature name
    | none => return .nothing
  | .property _ ownName => return askNamed ownName name defaults
  | .definition number =>
    match catalog.definition? number with
    | some (.function definition) => return askFunction definition name
    | some (.class definition) => askClass number definition name
    | some (.script definition) => return askNamed definition.name name defaults
    | some (.application definition) => return askNamed definition.name name defaults
    | none => return .nothing

def askValue (value : Value) (name : Text) (defaults : List Value) : Loads Value :=
  match value with
  | .entity entity => ask entity name defaults
  | _ => throw .noAnswer

def follow (name : Text) (path : List Text) (defaults : List Value) : Loads Value := do
  let start := match ← load name with
    | some entity => Value.entity entity
    | none => .nothing
  path.foldlM (fun value part => askValue value part defaults) start

def membersOf (value : Value) : Loads (List (Text × Value)) :=
  match value with
  | .entity (.folder number) => membersOfFolder number
  | _ => throw .noMembers

def asClass (value : Value) : Loads ClassDef := do
  match value with
  | .entity (.definition number) =>
    match (← get).class? number with
    | some definition => return definition
    | none => throw .noBases
  | _ => throw .noBases

/-- The routines that are not made anew for each folder. -/
def sharedRoutines : List Text :=
  ["matlabify", "parse_mfile", "parse_mlappfile", "_remove_comment_header",
   "_remove_line_continuations", "_fix_function_signatures", "__class__", "__new__",
   "sphinx_env", "sphinx_app"]

/-- Whether two lookups of a name give the same thing. What is made anew for each lookup is never
the same. -/
def isSame : Value → Value → Bool
  | .nothing, .nothing => true
  | .flag a, .flag b => a == b
  | .number a, .number b => a == b
  | .text a, .text b => a == b
  | .contents a, .contents b => a == b
  | .internal _ a, .internal _ b => a == b && sharedRoutines.contains a
  | .entity (.property _ _), _ => false
  | .entity a, .entity b => a == b
  | _, _ => false

end MatlabDocs.Catalog
