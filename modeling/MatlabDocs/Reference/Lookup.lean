import MatlabDocs.Reference.Tables

/-!
# Looking up objects

A reference names an object in the scope of a module and a class. A plain lookup takes the
first full name that is entered, whatever its type. A narrow lookup looks in the innermost
scope first, considers only the types that the role of the reference admits, and falls back
on all names that end with the one looked for.
-/

namespace MatlabDocs

def objectRoles : List (Text × Text) :=
  [("function", "func"), ("data", "data"), ("class", "class"), ("exception", "exc"),
   ("method", "meth"), ("classmethod", "meth"), ("staticmethod", "meth"), ("attribute", "attr"),
   ("module", "mod"), ("script", "scpt"), ("application", "app")]

/-- The types that a role admits; `obj` admits all of them. -/
def typesForRole? (role : Text) : Option (List Text) :=
  let types := objectRoles.filter fun (_, typeRole) => role == "obj" || role == typeRole
  if types.isEmpty then none else some (types.map Prod.fst)

/-- The module and the class in whose scope a name is looked up; an empty one counts as none. -/
structure NameScope where
  module : Option Text := none
  class? : Option Text := none
  deriving DecidableEq, Repr

namespace NameScope

def given (name : Option Text) : Option Text :=
  name.filter (· ≠ [])

end NameScope

def dotted (scope name : Text) : Text :=
  scope ++ "." ++ name

namespace ReferenceTables

abbrev Match := Text × ObjectEntry

def find? (tables : ReferenceTables) (name : Text) : Option Match :=
  (tables.objects.get? name).map (name, ·)

def findTyped? (tables : ReferenceTables) (types : List Text) (name : Text) : Option Match :=
  (tables.find? name).filter fun (_, entry) => types.contains entry.type

def firstMatch? (lookups : List (Option Match)) : Option Match :=
  lookups.findSome? id

def findNarrow (tables : ReferenceTables) (scope : NameScope) (types : List Text) (name : Text) :
    List Match :=
  let module := NameScope.given scope.module
  let class? := NameScope.given scope.class?
  let inClass := do dotted (dotted (← module) (← class?)) name
  let inModule := do dotted (← module) name
  let exact := firstMatch?
    [inClass.bind (tables.findTyped? types), inModule.bind (tables.findTyped? types),
     tables.findTyped? types name]
  match exact with
  | some found => [found]
  | none =>
    tables.objects.entries.filter fun (full, entry) =>
      full.endsWith ("." ++ name) && types.contains entry.type

/-- The plain lookup. Modules are only found under their full name. -/
def findPlain (tables : ReferenceTables) (scope : NameScope) (role name : Text) : Option Match :=
  let module := NameScope.given scope.module
  let class? := NameScope.given scope.class?
  let undotted := !name.contains '.'
  match tables.find? name with
  | some found => some found
  | none =>
    if role == "mod" then none
    else
      firstMatch?
        [(do dotted (← class?) name).bind tables.find?,
         (do dotted (← module) name).bind tables.find?,
         (do dotted (dotted (← module) (← class?)) name).bind tables.find?,
         if role == "exc" && undotted then tables.find? (dotted "exceptions" name) else none,
         if (role == "func" || role == "meth") && undotted then
           tables.find? (dotted "object" name)
         else none]

def withoutCall (name : Text) : Text :=
  if name.endsWith "()" then name.take (name.length - 2) else name

def findObjects (tables : ReferenceTables) (scope : NameScope) (role name : Text)
    (narrow : Bool) : List Match :=
  let name := withoutCall name
  if name = [] then []
  else if narrow then
    match typesForRole? role with
    | some types => tables.findNarrow scope types name
    | none => []
  else (tables.findPlain scope role name).toList

end ReferenceTables

end MatlabDocs
