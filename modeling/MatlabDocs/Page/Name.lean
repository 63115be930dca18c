import MatlabDocs.Page.Basic
import MatlabDocs.Signature.Parts

/-!
# Names of entries

An entry is asked for by a name, which may have its module set apart and arguments behind
it. What the name does not say is taken from the scope.
-/

namespace MatlabDocs

/-- What an entry is about: a module, or the end of a path in it. -/
structure EntryName where
  module : Text
  path : List Text
  fullName : Text
  arguments : Option Text := none
  returned : Option Text := none
  deriving DecidableEq, Repr

namespace EntryName

def wholeFolder : Text :=
  "*"

def dotted (path : List Text) : Text :=
  Text.joinWith "." path

def present? : Option Text → Option Text
  | some [] => none
  | other => other

def resolveModuleLevel (scope : PageScope) (directSearch isException : Bool)
    (parts : SignatureParts) : Option Text × List Text :=
  let parents := match parts.explicitModule, parts.path with
    | some _, some path => (Text.trimRight (· == '.') path).splitOn '.'
    | _, _ => []
  let module := match parts.explicitModule, parts.path with
    | some module, _ => some module
    | none, some path => some (Text.trimRight (· == '.') path)
    | none, none =>
      let inScope := present? scope.module
      if isException then inScope
      else
        let around := inScope <|> present? scope.describedModule
        if directSearch then around <|> some wholeFolder else around
  (present? module, parents ++ [parts.name])

def resolveClassLevel (scope : PageScope) (parts : SignatureParts) : Option Text × List Text :=
  match parts.explicitModule with
  | some module =>
    let parents := match parts.path with
      | some path => (Text.trimRight (· == '.') path).splitOn '.'
      | none => []
    (present? (some module), parents ++ [parts.name])
  | none =>
    let class? := match parts.path with
      | some path => some (Text.trimRight (· == '.') path)
      | none => scope.class? <|> scope.describedClass
    match class? with
    | none => (none, [])
    | some className =>
      let (module, last) := (Text.splitLast? '.' className).getD ([], className)
      (present? (some module) <|> present? scope.module <|> present? scope.describedModule,
        [last, parts.name])

def resolve (sort : EntrySort) (scope : PageScope) (directSearch : Bool)
    (parts : SignatureParts) : Option Text × List Text :=
  if sort = .module then (some (parts.path.getD [] ++ parts.name), [])
  else if sort.isClassLevel then resolveClassLevel scope parts
  else resolveModuleLevel scope directSearch (sort = .exception) parts

def join (module : Text) (path : List Text) : Text :=
  if path = [] then module else module ++ "." ++ dotted path

def ofMember (module : Text) (path : List Text) (member : Text) : Text :=
  module ++ "::" ++ dotted (path ++ [member])

def upToColons : Text → Text
  | [] => []
  | ':' :: ':' :: _ => []
  | c :: rest => c :: upToColons rest

def afterColons : Text → Text
  | [] => []
  | ':' :: ':' :: rest => rest
  | _ :: rest => afterColons rest

/-- What an analysis is asked for to find the number of a member. A name that has a double colon
in itself is cut there. -/
def tag (name : EntryName) (member : Text) : Text :=
  upToColons (afterColons (ofMember name.module name.path member))

end EntryName

namespace Page

def readName (settings : PageSettings) (sort : EntrySort) (name : Text) :
    Writes (Option EntryName) := do
  match SignatureParts.ofGenerated? name with
  | none =>
    warn ("invalid signature for auto" ++ sort.label ++ " (" ++ name.quoted ++ ")")
    return none
  | some parts =>
    if sort = .module && parts.explicitModule.isSome then
      warn "\"::\" in automodule name doesn't make sense"
    match EntryName.resolve sort (← get).scope settings.directSearch parts with
    | (none, _) => return none
    | (some module, path) =>
      let entry : EntryName :=
        { module, path, fullName := EntryName.join module path,
          arguments := parts.arguments, returned := parts.returned }
      let given := (EntryName.present? parts.arguments).isSome ||
        (EntryName.present? parts.returned).isSome
      if sort = .module && given then
        warn ("signature arguments or return annotation given for automodule " ++ entry.fullName)
      return some entry

end Page

end MatlabDocs
