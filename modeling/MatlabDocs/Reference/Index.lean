import MatlabDocs.Reading
import MatlabDocs.Reference.Tables
import MatlabDocs.Signature.Package
import MatlabDocs.Text.Lowercase

/-!
# The module index

The modules are listed by name, under the first letter of the name that is shown. A module
in a package stands under that package.
-/

namespace MatlabDocs

/-- How an entry stands in the index: by itself, as the head of a group, or in a group. -/
inductive IndexLevel where
  | single
  | head
  | member
  deriving DecidableEq, Repr

structure ModuleIndexEntry where
  name : Text
  level : IndexLevel
  document : Text := []
  anchor : Text := []
  platform : Option Text := some []
  qualifier : Text := []
  synopsis : Option Text := some []
  deriving DecidableEq, Repr

/-- The entries under each letter; the index may be folded when it is opened. -/
structure ModuleIndex where
  letters : List (Text × List ModuleIndexEntry)
  collapse : Bool
  deriving DecidableEq, Repr

structure IndexSettings where
  commonPrefixes : List Text := []
  keepPackageSigns : Bool := true
  deriving DecidableEq, Repr

namespace ModuleIndex

/-- The index while it is being made, with the name of the last module. -/
structure Draft where
  letters : NameTable (List ModuleIndexEntry) := {}
  previous : Text := []
  topLevel : Nat := 0

def textLe (a b : Text) : Bool :=
  !decide (b < a)

/-- The longest of the prefixes that the name starts with, and the rest of the name. A name
that is a prefix as a whole is kept. -/
def stripCommon (commonPrefixes : List Text) (name : Text) : Text × Text :=
  let longestFirst := commonPrefixes.mergeSort fun a b => b.length ≤ a.length
  match longestFirst.find? fun start => name.startsWith start with
  | some start =>
    if start.length = name.length then ([], start) else (start, name.drop start.length)
  | none => ([], name)

def markLastHead (entries : List ModuleIndexEntry) : List ModuleIndexEntry :=
  match entries.reverse with
  | [] => []
  | last :: front => ({ last with level := .head } :: front).reverse

def addModule (settings : IndexSettings) (draft : Draft) (fullName : Text) (module : ModuleEntry) :
    Except Fault Draft :=
  let (stripped, name) := stripCommon settings.commonPrefixes fullName
  let shown := if settings.keepPackageSigns then name else withoutPackageSigns name
  match shown with
  | [] => .error .emptyModuleName
  | first :: _ =>
    let letter := lowercase [first]
    let entries := (draft.letters.get? letter).getD []
    let package := (name.splitOn '.').headD []
    let isMember := package != name
    let prepared :=
      if isMember then
        if draft.previous = package then markLastHead entries
        else if draft.previous.startsWith package then entries
        else entries ++ [{ name := stripped ++ package, level := .head }]
      else entries
    let entry : ModuleIndexEntry :=
      { name := stripped ++ shown
        level := if isMember then .member else .single
        document := module.document
        anchor := moduleAnchor (stripped ++ name)
        platform := module.platform
        qualifier := if module.deprecated then "Deprecated" else []
        synopsis := module.synopsis }
    .ok
      { letters := draft.letters.insert letter (prepared ++ [entry])
        previous := name
        topLevel := if isMember then draft.topLevel else draft.topLevel + 1 }

/-- The index of the modules in the given documents, or in all if none is given. -/
def generate (settings : IndexSettings) (modules : NameTable ModuleEntry) (documents : List Text) :
    Except Fault ModuleIndex := do
  let sorted := modules.entries.mergeSort fun a b => textLe (lowercase a.1) (lowercase b.1)
  let chosen := sorted.filter fun (_, module) =>
    documents.isEmpty || documents.contains module.document
  let draft ← chosen.foldlM (fun draft (name, module) => addModule settings draft name module) {}
  return {
    letters := draft.letters.entries.mergeSort fun a b => textLe a.1 b.1
    collapse := modules.entries.length < draft.topLevel + draft.topLevel }

end ModuleIndex

end MatlabDocs
