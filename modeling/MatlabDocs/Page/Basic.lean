import MatlabDocs.Page.Options

/-!
# Pages

A page is a list of lines, each with the source it comes from. While a page is written,
modules are loaded, and the modules that it depends on are recorded.
-/

namespace MatlabDocs

structure PageLine where
  text : Text
  source : Text
  deriving DecidableEq, Repr

/-- Which docstrings tell of a class: its own, that of its constructor, or both. -/
inductive ClassContent where
  | own
  | constructorOnly
  | both
  deriving DecidableEq, Repr

structure PageSettings where
  sourceFolder : Text
  encoding : Option Text := none
  /-- Source files are looked for beside the document. -/
  besideDocument : Bool := false
  /-- Objects without a module are looked for in the source folder itself. -/
  directSearch : Bool := false
  order : MemberOrder := .alphabetical
  docstringSignatures : Bool := true
  classContent : ClassContent := .own
  defaults : NameTable OptionValue := {}
  /-- The members that are left out whatever the options say, and those that are kept. -/
  skipped : NameTable Bool := {}

/-- The modules and classes that names are resolved in: those of the entry that is being written,
and those of the descriptions around it. -/
structure PageScope where
  module : Option Text := none
  class? : Option Text := none
  describedModule : Option Text := none
  describedClass : Option Text := none
  deriving DecidableEq, Repr

structure PageState where
  catalog : Catalog
  scope : PageScope := {}
  lines : List PageLine := []
  dependencies : List Text := []

/-- What writes a page. A fault leaves what was loaded and noticed before it. -/
abbrev Writes := ExceptT Fault (StateM PageState)

namespace Page

def loads {α : Type} (action : Loads α) : Writes α := do
  let state ← get
  let (result, catalog) := action.run.run state.catalog
  set { state with catalog }
  match result with
  | .ok value => return value
  | .error fault => throw fault

def catalog : Writes Catalog :=
  return (← get).catalog

def notify (severity : Severity) (text : Text) : Writes Unit :=
  modify fun state => { state with
    catalog := { state.catalog with notices := state.catalog.notices ++ [⟨severity, text⟩] } }

def warn (text : Text) : Writes Unit :=
  notify .warning text

/-- Adds a line; a blank line is written without its blanks. -/
def addLine (indent text source : Text) : Writes Unit :=
  let line := if text.all isBlank then [] else indent ++ text
  modify fun state => { state with lines := state.lines ++ [⟨line, source⟩] }

def addDependency (path : Text) : Writes Unit :=
  modify fun state =>
    if state.dependencies.contains path then state
    else { state with dependencies := state.dependencies ++ [path] }

def generated : Text :=
  "<autodoc>"

end Page

end MatlabDocs
