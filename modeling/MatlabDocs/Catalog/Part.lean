import MatlabDocs.Catalog.Ask
import MatlabDocs.Catalog.PlainDocs

/-!
# Parts of values

Folders and classes answer to the names of their members. Everything else has a fixed set of
parts, which depends on its type: the data it was read with, and what all entities inherit.
-/

namespace MatlabDocs

def AttributeValue.toValue : AttributeValue → Value
  | flag value => .flag value
  | word value => .text value
  | items values => .list (values.map .text)

def Attributes.toValue (attributes : Attributes) : Value :=
  .mapping (attributes.entries.map fun (name, value) => (name, value.toValue))

namespace Catalog

def ofTexts? : Option (List Text) → Value
  | some texts => .list (texts.map .text)
  | none => .nothing

def ofTokens (tokens : List Token) : Value :=
  .list (tokens.map fun token => .text token.value)

def functionParts (definition : FunctionDef) : List (Text × Value) :=
  [("name", .ofText? definition.name), ("module", .text definition.module),
   ("tokens", ofTokens definition.tokens), ("docstring", .text definition.docstring),
   ("retv", ofTexts? definition.outputs), ("args", ofTexts? definition.arguments),
   ("rem_tks", (definition.remaining.map ofTokens).getD .nothing)]

def methodParts (owner : Nat) (definition : MethodDef) : List (Text × Value) :=
  functionParts definition.signature ++
    ([("cls", .entity (.definition owner)), ("attrs", definition.attributes.toValue)] :
      List (Text × Value))

def propertyParts (owner : Nat) (name : Text) (definition : PropertyDef) : List (Text × Value) :=
  [("name", .text name), ("cls", .entity (.definition owner)),
   ("attrs", definition.attributes.toValue), ("default", .ofText? (definition.default?.getD none)),
   ("docstring", .ofText? (definition.docstring?.getD none))]

def scriptParts (definition : ScriptDef) : List (Text × Value) :=
  [("name", .text definition.name), ("module", .text definition.module),
   ("tokens", ofTokens definition.tokens), ("docstring", .text definition.docstring),
   ("rem_tks", .nothing)]

def applicationParts (definition : ApplicationDef) : List (Text × Value) :=
  [("name", .text definition.name), ("module", .text definition.module),
   ("docstring", .text definition.docstring)]

def partsOf (catalog : Catalog) : Entity → List (Text × Value)
  | .folder _ => []
  | .method owner name => ((catalog.method? owner name).map (methodParts owner)).getD []
  | .property owner name => ((catalog.property? owner name).map (propertyParts owner name)).getD []
  | .definition number =>
    match catalog.definition? number with
    | some (.function definition) => functionParts definition
    | some (.script definition) => scriptParts definition
    | some (.application definition) => applicationParts definition
    | some (.class _) => []
    | none => []

/-- What functions and methods have by their type: the words that open blocks, and a routine. -/
def typeParts (catalog : Catalog) (entity : Entity) : List (Text × Value) :=
  let words : Text × Value := ("mat_kws", .list (FunctionDef.blockKeywords.map .text))
  match entity with
  | .method _ _ => [words, ("reset_tokens", .internal entity "reset_tokens")]
  | .definition number =>
    match catalog.definition? number with
    | some (.function _) => [words]
    | _ => []
  | _ => []

def inheritedRoutines : List Text :=
  routineNames.filter (· != "safe_getmembers")

/-- What something other than a folder or a class has besides its data. -/
def inheritedParts (catalog : Catalog) (entity : Entity) : List (Text × Value) :=
  ([("__name__", .text (catalog.nameOf entity)),
    ("__doc__", .ofText? (catalog.docstringOf (.entity entity))),
    ("__module__", .text ((catalog.moduleOf? entity).getD libraryModule)),
    ("__dict__", .mapping (catalog.partsOf entity)), ("__weakref__", .nothing),
    ("basedir", .text catalog.root), ("encoding", .ofText? catalog.encoding),
    ("sphinx_env", catalog.sitePart entity "sphinx_env"),
    ("sphinx_app", catalog.sitePart entity "sphinx_app")] : List (Text × Value)) ++
    (catalog.typeParts entity ++ inheritedRoutines.map fun name => (name, .internal entity name))

def fixedPart? (catalog : Catalog) (entity : Entity) (name : Text) : Option Value :=
  (catalog.partsOf entity ++ catalog.inheritedParts entity).lookup name

/-- What a value has under a name; `none` if there is no such part. Folders and classes have an
answer to every name. -/
def part? (value : Value) (name : Text) : Loads (Option Value) := do
  let catalog ← get
  match value with
  | .entity (.folder number) => return some (← askFolder number name)
  | .entity (.definition number) =>
    match catalog.class? number with
    | some definition => return some (← askClass number definition name)
    | none => return catalog.fixedPart? (.definition number) name
  | .entity entity => return catalog.fixedPart? entity name
  | .internal _ ownName =>
    return if name == "__name__" then some (.text ownName)
      else if name == "__doc__" then some .nothing
      else if name == "__module__" then some (.text libraryModule)
      else none
  | plain => return if name == "__doc__" then some (.ofText? plain.plainDocstring) else none

def part (value : Value) (name : Text) : Loads Value := do
  match ← part? value name with
  | some found => return found
  | none => throw (.noSuchPart ((← get).typeOf value) name)

def partOrNothing (value : Value) (name : Text) : Loads Value := do
  return (← part? value name).getD .nothing

def statedModule (value : Value) : Loads (Option Text) := do
  match ← partOrNothing value "__module__" with
  | .text module => return if module = [] then none else some module
  | _ => return none

end Catalog

end MatlabDocs
