import MatlabDocs.Definition.Application
import MatlabDocs.SourceTree.Path

/-!
# Source trees

The folders and files that there are, by their places, and the folder in which the work is done.
Listings are in the order of the names: the file system may give another one, and where results
depend on the order, they are those for listings that are sorted.
-/

namespace MatlabDocs

inductive SourceFile where
  | source (bytes : List UInt8)
  | application (file : ApplicationFile)
  deriving DecidableEq, Repr

def SourceFile.bytes : SourceFile → List UInt8
  | source bytes => bytes
  | application _ => []

structure SourceTree where
  workingFolder : List Text := []
  folders : List (List Text) := []
  files : Table (List Text) SourceFile := {}

namespace SourceTree

/-- A folder as it is met on a walk: its path, the folders in it and the files in it. -/
structure Visit where
  path : Text
  folders : List Text
  files : List Text

def place? (tree : SourceTree) (path : Text) : Option (List Text) :=
  Path.place? tree.workingFolder path

def isFolder (tree : SourceTree) (path : Text) : Bool :=
  match tree.place? path with
  | some place => place.isEmpty || tree.folders.contains place
  | none => false

def file? (tree : SourceTree) (path : Text) : Option SourceFile :=
  (tree.place? path).bind tree.files.get?

def addFolder (tree : SourceTree) (place : List Text) : SourceTree :=
  let onTheWay := (List.range place.length).map fun n => place.take (n + 1)
  let missing := onTheWay.filter (!tree.folders.contains ·)
  { tree with folders := tree.folders ++ missing }

def makeFolder (tree : SourceTree) (path : Text) : SourceTree :=
  match tree.place? path with
  | some place => tree.addFolder place
  | none => tree

def write (tree : SourceTree) (path : Text) (file : SourceFile) : SourceTree :=
  match tree.place? path with
  | some place =>
    let made := tree.addFolder place.dropLast
    { made with files := made.files.insert place file }
  | none => tree

def delete (tree : SourceTree) (path : Text) : SourceTree :=
  match tree.place? path with
  | some place => { tree with files := tree.files.filter fun other _ => other != place }
  | none => tree

def nameLe (a b : Text) : Bool :=
  !decide (b < a)

def namesIn (place : List Text) (places : List (List Text)) : List Text :=
  let names := places.filterMap fun other =>
    if other.dropLast = place && other ≠ [] then other.getLast? else none
  names.mergeSort nameLe

def foldersIn (tree : SourceTree) (path : Text) : List Text :=
  match tree.place? path with
  | some place => namesIn place tree.folders
  | none => []

def filesIn (tree : SourceTree) (path : Text) : List Text :=
  match tree.place? path with
  | some place => namesIn place tree.files.keys
  | none => []

def list (tree : SourceTree) (path : Text) : List Text :=
  (tree.foldersIn path ++ tree.filesIn path).mergeSort nameLe

def isVersionFolder (name : Text) : Bool :=
  name == ".git" || name == ".hg" || name == ".svn" || name == ".bzr"

def isSourceName (name : Text) : Bool :=
  name.endsWith ".m"

def walkDown (tree : SourceTree) : Nat → Text → List Visit
  | 0, _ => []
  | depth + 1, path =>
    let folders := (tree.foldersIn path).filter (!isVersionFolder ·)
    let files := (tree.filesIn path).filter isSourceName
    let below := folders.flatMap fun name => tree.walkDown depth (Path.join path name)
    ⟨path, folders, files⟩ :: below

/-- Visits a folder and all those below it. Version control folders are left out, and only
source files are seen. -/
def walk (tree : SourceTree) (path : Text) : List Visit :=
  let depth := (tree.folders.map List.length).foldl max 0
  if tree.isFolder path then tree.walkDown (depth + 1) path else []

end SourceTree

end MatlabDocs
