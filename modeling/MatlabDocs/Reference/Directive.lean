import MatlabDocs.Reference.Description
import MatlabDocs.Reference.Tables

/-!
# Directives

A document is a sequence of directives. They describe objects and modules, enter them in the
reference tables, and set the module and the class in whose scope the next ones stand.
-/

namespace MatlabDocs

inductive Directive where
  | mk (name argument : Text) (options : NameTable (Option Text)) (content : List Directive)
  deriving Inhabited

/-- An entry of the general index: its text and the anchor that it leads to. -/
structure IndexEntry where
  text : Text
  anchor : Text
  deriving DecidableEq, Repr

/-- A signature in a document: what could be read of it, the name under which it can be
referred to, and its anchor. -/
structure SignatureNode where
  signature : Except Text ReadSignature
  target : Option (Text × Text) := none

inductive DocumentNode where
  | index (entries : List IndexEntry)
  | target (anchor : Text)
  | description (type : Text) (unlisted : Bool) (signatures : List SignatureNode)
      (content : List DocumentNode)

structure ReferenceState where
  tables : ReferenceTables := {}
  module : Option Text := none
  class? : Option Text := none
  document : Text
  anchors : List Text := []
  notices : List Notice := []

abbrev Describes := ExceptT Fault (StateM ReferenceState)

def Notice.duplicateDescription (name document : Text) : Notice :=
  ⟨.report, "duplicate object description of " ++ name ++ ", other instance in " ++ document ++
    ".rst, use :noindex: for one of them"⟩

namespace Directive

def sortAndType? (name : Text) : Option (DescriptionSort × Text) :=
  if (["function", "data", "script", "application"] : List Text).contains name then
    some (.moduleLevel, name)
  else if (["class", "exception"] : List Text).contains name then some (.classLike, name)
  else if (["method", "classmethod", "staticmethod", "attribute"] : List Text).contains name then
    some (.classMember, name)
  else if name == "decorator" then some (.decoratorFunction, "function")
  else if name == "decoratormethod" then some (.decoratorMethod, "method")
  else none

def dropBackslashes : Text → Text
  | '\\' :: c :: rest => if c = '\n' then '\\' :: c :: dropBackslashes rest
      else c :: dropBackslashes rest
  | c :: rest => c :: dropBackslashes rest
  | [] => []

/-- The signatures in an argument, one a line; a backslash at the end of a line joins it with
the next one. -/
def signatures (settings : DisplaySettings) (argument : Text) : List Text :=
  let lines := ((Text.replace "\\\n" [] argument).splitOn '\n').map Text.strip
  if settings.stripBackslashes then lines.map dropBackslashes else lines

def optionOr (options : NameTable (Option Text)) (name : Text) (otherwise : Option Text) :
    Option Text :=
  (options.get? name).getD otherwise

def enterObject (type fullName : Text) : Describes Bool := do
  let state ← get
  if state.anchors.contains fullName then return false
  let duplicate := match state.tables.objects.get? fullName with
    | some other => [Notice.duplicateDescription fullName other.document]
    | none => []
  let objects := state.tables.objects.insert fullName ⟨state.document, type⟩
  set { state with
    tables := { state.tables with objects }
    anchors := state.anchors ++ [fullName]
    notices := state.notices ++ duplicate }
  return true

def withModule (module : Option Text) (name : Text) : Text :=
  match module with
  | some (c :: rest) => (c :: rest) ++ "." ++ name
  | _ => name

def enterSignature (sort : DescriptionSort) (settings : DisplaySettings) (type : Text)
    (module : Option Text) (name : Text) : Describes (Option (Text × Text) × List IndexEntry) := do
  let shownModule := module.map settings.shown
  let fullName := withModule module name
  let entered ← enterObject type fullName
  let text ← sort.indexText settings type name shownModule
  let target := if entered then some (withModule shownModule name, fullName) else none
  return (target, if text = [] then [] else [⟨text, fullName⟩])

structure Described where
  nodes : List SignatureNode := []
  names : List (Text × Option Text) := []
  entries : List IndexEntry := []

/-- Describes one signature. A name that has been described before is not entered again. -/
def describe (sort : DescriptionSort) (settings : DisplaySettings) (type : Text)
    (options : NameTable (Option Text)) (unlisted : Bool) (described : Described) (text : Text) :
    Describes Described := do
  let state ← get
  let module := optionOr options "module" state.module
  let note := optionOr options "annotation" none
  match readSignature? sort settings type state.class? ⟨module, note⟩ text with
  | none => return { described with nodes := described.nodes ++ [{ signature := .error text }] }
  | some signature =>
    let name := (signature.fullName, signature.path)
    let node : SignatureNode := { signature := .ok signature }
    if described.names.contains name then
      return { described with nodes := described.nodes ++ [node] }
    else
      let (target, entries) ←
        if unlisted then pure (none, [])
        else enterSignature sort settings type module signature.fullName
      return {
        nodes := described.nodes ++ [{ node with target }]
        names := described.names ++ [name]
        entries := described.entries ++ entries }

/-- The class whose scope the content of a description is in, if the description sets one. -/
def contentClass? (sort : DescriptionSort) (scopeClass : Option Text)
    (names : List (Text × Option Text)) : Option Text :=
  match sort with
  | .classLike => names.head?.map Prod.fst
  | .classMember | .decoratorMethod =>
    match names.getLast? with
    | some (_, some (c :: rest)) =>
      if (scopeClass.filter (· ≠ [])).isSome then none
      else some (Text.trim (· == '.') (c :: rest))
    | _ => none
  | _ => none

def describeModule (settings : DisplaySettings) (argument : Text)
    (options : NameTable (Option Text)) :
    Describes (List DocumentNode) := do
  let name := argument.strip
  modify fun state => { state with module := some name }
  if options.contains "noindex" then return []
  let anchor := moduleAnchor name
  modify fun state =>
    let entry : ModuleEntry :=
      { document := state.document
        synopsis := optionOr options "synopsis" (some [])
        platform := optionOr options "platform" (some [])
        deprecated := options.contains "deprecated" }
    { state with
      tables :=
        { modules := state.tables.modules.insert name entry
          objects := state.tables.objects.insert name ⟨state.document, "module"⟩ }
      anchors := state.anchors ++ [anchor] }
  return [.target anchor, .index [⟨settings.shown name ++ " (module)", anchor⟩]]

/-- Sets the current module; `None` stands for no module. -/
def setCurrentModule (argument : Text) : Describes (List DocumentNode) := do
  let name := argument.strip
  modify fun state => { state with module := if name == "None" then none else some name }
  return []

mutual

def run (settings : DisplaySettings) : Directive → Describes (List DocumentNode)
  | .mk name argument options content => do
    match sortAndType? name with
    | some (sort, type) =>
      let unlisted := options.contains "noindex" || options.contains "no-index"
      let described ← (signatures settings argument).foldlM
        (describe sort settings type options unlisted) {}
      let inner := contentClass? sort (← get).class? described.names
      modify fun state => { state with class? := inner.or state.class? }
      let nodes ← runAll settings content
      modify fun state => { state with class? := if inner.isSome then none else state.class? }
      return [.index described.entries, .description type unlisted described.nodes nodes]
    | none =>
      if name == "module" then describeModule settings argument options
      else if name == "currentmodule" then setCurrentModule argument
      else throw .unknownDirective

def runAll (settings : DisplaySettings) : List Directive → Describes (List DocumentNode)
  | [] => return []
  | directive :: rest => do
    let first ← run settings directive
    let others ← runAll settings rest
    return first ++ others

end

end Directive

end MatlabDocs
