import MatlabDocs.Reading
import MatlabDocs.Signature.Package
import MatlabDocs.Signature.Parameters
import MatlabDocs.Signature.Parts

/-!
# Descriptions of objects

How the signature of a described object is shown, and under which text it is listed in the
general index. This depends on the sort of the description and on the type of the object.
-/

namespace MatlabDocs

inductive DescriptionSort where
  | general
  | moduleLevel
  | classLike
  | classMember
  | decoratorFunction
  | decoratorMethod
  deriving DecidableEq, Repr

structure DisplaySettings where
  keepPackageSigns : Bool := true
  addModuleNames : Bool := true
  addFunctionParentheses : Bool := true
  stripBackslashes : Bool := false
  deriving DecidableEq, Repr

namespace DisplaySettings

def shown (settings : DisplaySettings) (name : Text) : Text :=
  if settings.keepPackageSigns then name else withoutPackageSigns name

end DisplaySettings

namespace DescriptionSort

def isDecorator : DescriptionSort → Bool
  | decoratorFunction | decoratorMethod => true
  | _ => false

def label (sort : DescriptionSort) (type : Text) : Text :=
  match sort with
  | classLike => type ++ " "
  | classMember | decoratorMethod =>
    if type == "staticmethod" then "static "
    else if type == "classmethod" then "classmethod "
    else []
  | _ => []

def needsParentheses (sort : DescriptionSort) (type : Text) : Bool :=
  match sort with
  | moduleLevel => type == "function"
  | classMember => type.endsWith "method"
  | _ => false

/-- `name (in module m)`, or `name` with what is said of an object without a module. -/
def inModule (name : Text) (module : Text) (otherwise : Text) : Text :=
  if module = [] then name ++ otherwise else name ++ " (in module " ++ module ++ ")"

def moduleLevelText (type name module : Text) : Text :=
  if type == "function" then inModule (name ++ "()") module " (built-in function)"
  else if type == "data" then inModule name module " (built-in variable)"
  else if type == "application" then inModule name module " (built-in application)"
  else []

def classLikeText (type name module : Text) : Text :=
  if type == "class" then
    if module = [] then name ++ " (built-in class)" else name ++ " (class in " ++ module ++ ")"
  else if type == "exception" then name
  else []

/-- The text for a member of a class; `call` follows its name. -/
def memberText (name module call kind : Text) (showModule : Bool) : Text :=
  match name.splitLast? '.' with
  | none => inModule (name ++ call) module []
  | some (owner, member) =>
    let qualified := if module ≠ [] && showModule then module ++ "." ++ owner else owner
    member ++ call ++ " (" ++ qualified ++ " " ++ kind ++ ")"

def classMemberText (settings : DisplaySettings) (type name module : Text) : Text :=
  if type == "method" then memberText name module "()" "method" settings.addModuleNames
  else if type == "staticmethod" then
    memberText name module "()" "static method" settings.addModuleNames
  else if type == "classmethod" then memberText name module "()" "class method" true
  else if type == "attribute" then memberText name module [] "attribute" settings.addModuleNames
  else []

/-- The text under which an object is listed; it is not listed if the text is empty. -/
def indexText (sort : DescriptionSort) (settings : DisplaySettings) (type name : Text)
    (module : Option Text) : Except Fault Text :=
  let module := module.getD []
  match sort with
  | general => .error .noIndexText
  | moduleLevel | decoratorFunction => .ok (moduleLevelText type name module)
  | classLike => .ok (classLikeText type name module)
  | classMember | decoratorMethod => .ok (classMemberText settings type name module)

end DescriptionSort

inductive SignaturePart where
  | label (text : Text)
  | qualifier (text : Text)
  | name (text : Text)
  | parameters (parameters : List Parameter)
  | returns (text : Text)

/-- A signature that could be read: the module and the class it is in, the full name of the
object within the module, the path that is shown, and the parts of what is shown. -/
structure ReadSignature where
  module : Option Text
  className : Text
  fullName : Text
  path : Option Text
  parts : List SignaturePart

structure DescriptionOptions where
  module : Option Text
  note : Option Text

/-- The full name, the class and the shown path of an object. Inside of a class the name is
qualified by that class, and the class is not shown again. -/
def qualify (scopeClass : Option Text) (path : Option Text) (name : Text) :
    Text × Text × Option Text :=
  match scopeClass, path with
  | none, none => (name, [], none)
  | none, some path => (path ++ name, path.trimRight (· == '.'), some path)
  | some owner, none => (owner ++ "." ++ name, owner, none)
  | some owner, some path =>
    if path.startsWith owner then
      (path ++ name, owner, some ((path.drop owner.length).dropWhile (· == '.')))
    else (owner ++ "." ++ path ++ name, owner, some path)

/-- The path in front of a name, or the module if the name has none. -/
def shownQualifier (settings : DisplaySettings) (scopeClass path module : Option Text) :
    Option Text :=
  match path with
  | some (c :: rest) => some (c :: rest)
  | _ =>
    match scopeClass, module with
    | none, some (c :: rest) =>
      if settings.addModuleNames && (c :: rest) != "exceptions" then
        some (settings.shown (c :: rest) ++ ".")
      else none
    | _, _ => none

def readSignature? (sort : DescriptionSort) (settings : DisplaySettings) (type : Text)
    (scopeClass : Option Text) (options : DescriptionOptions) (text : Text) :
    Option ReadSignature := do
  let parts ← SignatureParts.ofDescription? text
  let scopeClass := scopeClass.filter (· ≠ [])
  let name := settings.shown parts.name
  let (fullName, className, path) := qualify scopeClass (parts.path.map settings.shown) name
  let note := match options.note with
    | some (c :: rest) => [SignaturePart.label (" " ++ (c :: rest))]
    | _ => []
  let returns := match parts.returned with
    | some (c :: rest) => [SignaturePart.returns (c :: rest)]
    | _ => []
  let label := sort.label type
  let parameters := match parts.arguments with
    | some (c :: rest) => [SignaturePart.parameters (Parameter.parseList (c :: rest))]
    | _ => if sort.needsParentheses type then [.parameters []] else []
  let decoration := if sort.isDecorator then [SignaturePart.qualifier "@"] else []
  let before := if label = [] then [] else [SignaturePart.label label]
  let qualifier := match shownQualifier settings scopeClass path options.module with
    | some text => [SignaturePart.qualifier text]
    | none => []
  return {
    module := options.module.map settings.shown
    className
    fullName
    path
    parts := decoration ++ before ++ qualifier ++ [.name name] ++ parameters ++ returns ++ note }

end MatlabDocs
