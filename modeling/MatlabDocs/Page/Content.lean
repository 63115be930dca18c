import MatlabDocs.Catalog.Analysis
import MatlabDocs.Page.Signature

/-!
# Contents of entries

Below its header an entry holds the docstrings of the thing and the lines that the document
adds. An alias of a class only says what it is an alias of.
-/

namespace MatlabDocs.Page

def emptyConstructorDocstring : Text :=
  "Initialize self.  See help(type(self)) for accurate signature."

def constructorDocstring (settings : PageSettings) (finding : Finding) :
    Loads (Option Text) := do
  let method ← constructor finding.value
  let docstring ←
    if settings.docstringSignatures then
      match ← signatureFromConstructor settings finding with
      | some found => pure (some (Text.joinWith "\n" found.rest))
      | none => pure ((← docLines? method).map (Text.joinWith "\n"))
    else docstring? method
  return match docstring with
    | some text => if text = [] || text == emptyConstructorDocstring then none else some text
    | none => none

def classDocstrings (settings : PageSettings) (finding : Finding) : Loads (List Text) := do
  let own := (← docstring? finding.value).toList
  match settings.classContent with
  | .own => return own
  | .both => return own ++ (← constructorDocstring settings finding).toList
  | .constructorOnly =>
    match ← constructorDocstring settings finding with
    | some docstring => return [docstring]
    | none => return own

def docstringLines (settings : PageSettings) (sort : EntrySort) (finding : Finding)
    (signatureRest : Option (List Text)) : Loads (List Text) := do
  match sort, signatureRest with
  | .classEntry, _ => return (← classDocstrings settings finding).flatMap Docstring.prepare
  | .exception, _ => throw .noExceptionEntry
  | _, some lines => return lines
  | _, none => return (← docLines? finding.value).getD []

def docstringSource (analysis : Option Text) (finding : Finding) : Text :=
  let origin := "docstring of " ++ finding.name.fullName
  match analysis with
  | some path => path ++ ":" ++ origin
  | none => origin

/-- Whether the analysis of the module holds a docstring under the path of the entry. That
docstring is not cut into lines, so it can only be used if it is empty. -/
def isAnalyzed (analysis : Option Text) (finding : Finding) : Loads Bool := do
  match analysis, finding.name.path.getLast? with
  | some path, some last =>
    let space := EntryName.dotted finding.name.path.dropLast
    match (← Catalog.memberDocs path).docstrings.get? (space, last) with
    | none => return false
    | some (.text []) => return true
    | some (.text _) => throw .unbrokenDocstring
    | some _ => throw .missingDocstring
  | _, _ => return false

def addLines (indent : Text) (lines : List PageLine) : Writes Unit :=
  lines.forM fun line => addLine indent line.text line.source

def addContent (settings : PageSettings) (sort : EntrySort) (finding : Finding)
    (analysis : Option Text) (indent : Text) (signatureRest : Option (List Text))
    (more : List PageLine) : Writes Unit := do
  if sort = .classEntry && isAlias (← catalog) finding then
    match finding.value with
    | .entity entity =>
      let name := (← catalog).nameOf entity
      unless name = [] do
        let _ ← loads (isAnalyzed analysis finding)
        addLine indent ("alias of :class:`" ++ name ++ "`") ""
    | _ => return
  else
    unless ← loads (isAnalyzed analysis finding) do
      let source := docstringSource analysis finding
      let lines ← loads (docstringLines settings sort finding signatureRest)
      addLines indent (lines.map (⟨·, source⟩))
    addLines indent more

end MatlabDocs.Page
