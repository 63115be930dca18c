import MatlabDocs.Page.Docstring
import MatlabDocs.Page.Find

/-!
# Signatures of entries

The signature of an entry is the one that is asked for, else one in the first line of the
docstring, else the arguments of the thing itself.
-/

namespace MatlabDocs

structure DocstringSignature where
  arguments : Option Text
  returned : Option Text
  rest : List Text
  deriving DecidableEq, Repr

namespace DocstringSignature

/-- The signature in the first line, if that names the thing. Blank lines after it are passed
over. -/
def find? (name : Text) : List Text → Option DocstringSignature
  | [] => none
  | first :: rest =>
    match SignatureParts.ofGenerated? first with
    | some parts =>
      if parts.name = name then
        some ⟨parts.arguments, parts.returned, rest.dropWhile fun line => line.all isBlank⟩
      else none
    | none => none

end DocstringSignature

namespace Page

def docstring? (value : Value) : Loads (Option Text) := do
  match ← Catalog.partOrNothing value "__doc__" with
  | .text docstring => return if docstring = [] then none else some docstring
  | _ => return none

def docLines? (value : Value) : Loads (Option (List Text)) := do
  return (← docstring? value).map Docstring.prepare

def inParentheses (arguments : List Text) : Text :=
  "(" ++ Text.joinWith ", " arguments ++ ")"

def argumentsOf (value : Value) : Loads (List Text) := do
  let catalog ← get
  match value with
  | .entity (.method owner name) =>
    return ((catalog.method? owner name).bind (·.signature.arguments)).getD []
  | .entity (.definition number) =>
    match catalog.definition? number with
    | some (.function definition) => return definition.arguments.getD []
    | _ => throw (.noSuchPart (catalog.typeOf value) "args")
  | _ => throw (.noSuchPart (catalog.typeOf value) "args")

def withoutObject : List Text → List Text
  | [] => []
  | first :: rest => if first == "obj" then rest else first :: rest

/-- The member of a thing that has its name. For a class this is its constructor. -/
def constructor (value : Value) : Loads Value := do
  match value with
  | .entity entity => Catalog.partOrNothing value ((← get).nameOf entity)
  | _ => return .nothing

def isMethod : Value → Bool
  | .entity (.method _ _) => true
  | _ => false

/-- The arguments as the thing itself states them; `none` if it states no arguments. -/
def formatArguments (sort : EntrySort) (value : Value) : Loads (Option Text) := do
  let shown (arguments : List Text) (listed : List Text) : Option Text :=
    if arguments = [] then none else some (inParentheses listed)
  match sort with
  | .function =>
    let arguments ← argumentsOf value
    return shown arguments arguments
  | .method =>
    let arguments ← argumentsOf value
    return shown arguments (withoutObject arguments)
  | .classEntry =>
    let method ← constructor value
    if isMethod method then
      let arguments ← argumentsOf method
      return shown arguments (withoutObject arguments)
    else return none
  | _ => return some ""

/-- A call with a return value has one blank on each side of the arrow. -/
def evenArrow (call : Text) : Text :=
  let split? := greatest? (fun length =>
    if call[length]? = some ')' then
      let after := call.drop (length + 1)
      match after.dropWhile isBlank with
      | '-' :: '>' :: rest =>
        let returned := rest.dropWhile isBlank
        if after.head?.any isBlank && rest.head?.any isBlank then
          some (call.take (length + 1), returned)
        else none
      | _ => none
    else none) (lineLength call)
  match split? with
  | some (arguments, []) => arguments
  | some (arguments, returned) => arguments ++ " -> " ++ returned
  | none => call

def statedSignature (sort : EntrySort) (finding : Finding) : Writes Text := do
  try pure (((← loads (formatArguments sort finding.value)).map evenArrow).getD "")
  catch fault =>
    warn ("error while formatting arguments for " ++ finding.name.fullName ++ ": " ++ fault.message)
    pure ""

def writtenSignature (sort : EntrySort) (finding : Finding) (arguments returned : Option Text) :
    Writes Text :=
  match arguments with
  | some arguments =>
    let call := "(" ++ arguments ++ ")"
    return match EntryName.present? returned with
      | some returned => call ++ " -> " ++ returned
      | none => call
  | none => statedSignature sort finding

/-- Whether a class is described under a name that is not its own. -/
def isAlias (catalog : Catalog) (finding : Finding) : Bool :=
  match finding.value, finding.name.path.getLast? with
  | .entity entity, some last => last != catalog.nameOf entity
  | _, _ => true

/-- The signature in the docstring of a function or method, with the other lines of the docstring.
Only looked for when no arguments are asked for. -/
def signatureFromDocstring (settings : PageSettings) (finding : Finding) :
    Loads (Option DocstringSignature) := do
  if finding.name.arguments.isNone && settings.docstringSignatures then
    match ← docLines? finding.value, finding.name.path.getLast? with
    | some lines, some name => return DocstringSignature.find? name lines
    | _, _ => return none
  else return none

def signatureFromConstructor (settings : PageSettings) (finding : Finding) :
    Loads (Option DocstringSignature) := do
  if settings.docstringSignatures then
    match finding.value, ← docLines? (← constructor finding.value) with
    | .entity entity, some lines =>
      return DocstringSignature.find? ((← get).nameOf entity) lines
    | _, _ => return none
  else return none

/-- The signature of an entry, and the lines of its docstring if the signature was found there. -/
def signatureOf (settings : PageSettings) (sort : EntrySort) (finding : Finding) :
    Writes (Text × Option (List Text)) := do
  let name := finding.name
  match sort with
  | .classEntry =>
    if isAlias (← catalog) finding then return ("", none)
    match ← loads (signatureFromConstructor settings finding) with
    | some found => return ("(" ++ found.arguments.getD "None" ++ ")", none)
    | none => return (← writtenSignature sort finding name.arguments name.returned, none)
  | .function | .method =>
    match ← loads (signatureFromDocstring settings finding) with
    | some found =>
      return (← writtenSignature sort finding found.arguments found.returned, some found.rest)
    | none => return (← writtenSignature sort finding name.arguments name.returned, none)
  | .exception => throw .noExceptionEntry
  | _ => return (← writtenSignature sort finding name.arguments name.returned, none)

end Page

end MatlabDocs
