import MatlabDocs.Page.Name

/-!
# Finding what an entry is about

The module of an entry is loaded from the source folder, and its path is followed from there.
What is not found, or cannot be read, is noticed, and the entry is left out. Only a reading that
never ends cannot be noticed.
-/

namespace MatlabDocs

structure Finding where
  name : EntryName
  value : Value
  parent : Value := .nothing

namespace Page

def sourceFolder (settings : PageSettings) (document : Text) : Text :=
  if settings.besideDocument then (Path.split document).1 else settings.sourceFolder

def enterFolder (settings : PageSettings) (document : Text) (name : EntryName) :
    Writes EntryName := do
  let folder := sourceFolder settings document
  let (root, module) :=
    if name.module == EntryName.wholeFolder then Path.split folder else (folder, name.module)
  modify fun state => { state with
    catalog := { state.catalog with root, encoding := settings.encoding, forPages := true } }
  return { name with module }

def followPath (parent value : Value) : List Text → Loads (Value × Value)
  | [] => return (parent, value)
  | part :: path => do
    followPath value (← Catalog.part value part) path

def lookUp (name : EntryName) : Loads (Value × Value) := do
  let _ ← Catalog.load name.module
  match (← get).modules.get? name.module with
  | some number => followPath .nothing (.entity (.folder number)) name.path
  | none => throw (.unknownModule name.module)

def notFound (sort : EntrySort) (name : EntryName) : Text :=
  "[sphinxcontrib-matlabdomain]: could not find " ++ sort.label ++ " " ++
    (EntryName.dotted name.path).quoted ++ " in module " ++ name.module.quoted

def notReadable (sort : EntrySort) (name : EntryName) (fault : Fault) : Text :=
  let subject :=
    if name.path = [] then name.fullName.quoted
    else (EntryName.dotted name.path).quoted ++ " from module " ++ name.module.quoted
  "[sphinxcontrib-matlabdomain]: failed to import " ++ sort.label ++ " " ++ subject ++
    "; the following exception was raised:\n" ++ fault.kind

def find? (settings : PageSettings) (document : Text) (sort : EntrySort) (asked : EntryName) :
    Writes (Option Finding) := do
  let name ← enterFolder settings document asked
  try
    let (parent, value) ← loads (lookUp name)
    if value.isPresent then pure (some { name, value, parent })
    else
      warn (notFound sort name)
      pure none
  catch fault =>
    if fault = .endless then throw fault
    warn (notReadable sort name fault)
    pure none

end Page

end MatlabDocs
