import MatlabDocs.Catalog.Shown
import MatlabDocs.Page.Content
import MatlabDocs.Page.Metadata

/-!
# Headers of entries

The header of an entry is the directive with the name and the signature, and options below it
that depend on the sort of entry.
-/

namespace MatlabDocs.Page

def blanks (count : Nat) : Text :=
  List.replicate count ' '

/-- Whether a method is static; other things of a class are not. Things outside of classes do not
say. -/
def isStatic (value : Value) : Loads Bool := do
  let catalog ← get
  let attributes? : Option Attributes := match value with
    | .entity (.method owner name) => (catalog.method? owner name).map MethodDef.attributes
    | .entity (.property owner name) => (catalog.property? owner name).map PropertyDef.attributes
    | .entity (.definition number) => (catalog.class? number).map ClassDef.attributes
    | _ => none
  match attributes? with
  | some attributes =>
    return ((attributes.get? "Static").map fun value => value.toValue.isPresent).getD false
  | none => throw .noAttributes

def directiveOf (sort : EntrySort) (finding : Finding) : Writes Text := do
  match sort with
  | .method => return if ← loads (isStatic finding.value) then "staticmethod" else "method"
  | .classEntry => return if isAlias (← catalog) finding then "attribute" else "class"
  | _ => return sort.directive

def shownName (name : EntryName) : Text :=
  if name.path = [] then name.module else EntryName.dotted name.path

def addDirective (directive : Text) (options : EntryOptions) (finding : Finding)
    (source indent signature : Text) : Writes Unit := do
  let start : Text := ".. mat:" ++ directive ++ ":: "
  let name := shownName finding.name
  match signature.splitOn '\n' with
  | [] => return
  | first :: rest =>
    addLine indent (start ++ name ++ first) source
    rest.forM fun line => addLine indent (blanks start.length ++ name ++ line) source
  if options.unlisted then addLine indent "   :no-index:" source
  unless finding.name.path = [] do
    addLine indent ("   :module: " ++ finding.name.module) source

def addModuleOptions (options : EntryOptions) (indent : Text) : Writes Unit := do
  unless options.synopsis = [] do
    addLine indent ("   :synopsis: " ++ options.synopsis) generated
  unless options.platform = [] do
    addLine indent ("   :platform: " ++ options.platform) generated
  if options.deprecated then addLine indent "   :deprecated:" generated

def addBases (options : EntryOptions) (finding : Finding) (indent : Text) : Writes Unit := do
  if options.showBases then
    unless isAlias (← catalog) finding do
      addLine indent "" generated
      let links ← loads do Catalog.baseLinks (← Catalog.asClass finding.value)
      unless links = [] do
        addLine indent ("   Bases: " ++ Text.joinWith ", " links) generated

def defaultOf (value : Value) : Loads Value := do
  let catalog ← get
  match value with
  | .entity (.property owner name) =>
    return .ofText? ((catalog.property? owner name).bind fun p => p.default?.getD none)
  | _ => throw .noDefault

def addDefault (options : EntryOptions) (finding : Finding) (indent : Text) : Writes Unit := do
  match options.valueNote with
  | .hidden => return
  | .text text => addLine indent ("   :annotation: " ++ text) generated
  | .value =>
    unless isMethod finding.value do
      let value ← loads (defaultOf finding.value)
      addLine indent ("   :annotation: = " ++ (← catalog).shownValue value) generated

/-- Writes the value of data, unless the options or the docstring hide it. -/
def addValue (options : EntryOptions) (finding : Finding) (source indent : Text) :
    Writes Unit := do
  match options.valueNote with
  | .hidden => return
  | .text text => addLine indent ("   :annotation: " ++ text) source
  | .value =>
    let lines := (← loads (docLines? finding.value)).getD []
    let fields := Docstring.prepare (Text.joinWith "\n" lines)
    unless options.hideValue || Metadata.isGiven "hide-value" false fields do
      addLine indent ("   :value: " ++ (← catalog).shownValue finding.value) source

def addHeader (sort : EntrySort) (directive : Text) (options : EntryOptions) (finding : Finding)
    (source indent signature : Text) : Writes Unit := do
  addDirective directive options finding source indent signature
  match sort with
  | .module => addModuleOptions options indent
  | .classEntry => addBases options finding indent
  | .attributeEntry | .instanceAttribute => addDefault options finding indent
  | .data => addValue options finding source indent
  | _ => return

end MatlabDocs.Page
