import MatlabDocs.Catalog.Basic

/-!
# Loading

A dotted name leads to a folder, a source file or an application file below the root of the
tree. A folder comes before a file of the same name, and is loaded once.
-/

namespace MatlabDocs

/-- What a dotted name leads to: a folder with its own name and its path, or a file and how it
reads. -/
inductive Target where
  | nothing
  | folder (name path : Text)
  | file (reading : Reading Definition)

namespace Catalog

def enter (reading : Reading Definition) : Loads Entity := do
  modify fun catalog => { catalog with notices := catalog.notices ++ reading.notices }
  match reading.result with
  | .error fault => throw fault
  | .ok definition =>
    let number := (← get).definitions.length
    modify fun catalog => { catalog with definitions := catalog.definitions ++ [definition] }
    return .definition number

def loadFolder (package name path : Text) : Loads Entity := do
  let catalog ← get
  match catalog.modules.get? package with
  | some number => return .folder number
  | none =>
    let number := catalog.folders.length
    set { catalog with
      folders := catalog.folders ++ [{ name, path, package : Folder }]
      modules := catalog.modules.insert package number }
    return .folder number

def applicationReading (name path : Text) (file : SourceFile) : Reading Definition :=
  let archive := match file with
    | .application archive => archive
    | .source _ => .damaged
  ⟨(ApplicationDef.read name path archive).map .application, []⟩

/-- What a dotted name leads to. A file is read as a part of the module that its folder is. -/
def target (catalog : Catalog) (name : Text) : Target :=
  if name = [] then .nothing
  else
    let relative := Path.ofDotted name
    let (path, last) := Path.split relative
    let full := Path.join catalog.root relative
    if catalog.tree.isFolder full then .folder last full
    else
      match catalog.tree.file? (full ++ ".m") with
      | some file => .file (Definition.ofBytes last path catalog.encoding file.bytes)
      | none =>
        match catalog.tree.file? (full ++ ".mlapp") with
        | some file => .file (applicationReading last path file)
        | none => .nothing

def load (name : Text) : Loads (Option Entity) := do
  match (← get).target name with
  | .nothing => return none
  | .folder last path => return some (← loadFolder name last path)
  | .file reading => return some (← enter reading)

end Catalog

end MatlabDocs
