import MatlabDocs.Definition.Basic
import MatlabDocs.Xml.Element

/-!
# Applications

An application file is an archive with two documents that describe it. Its docstring is made
of the description in the core properties and that in the metadata of the application.
-/

namespace MatlabDocs

/-- An application file: an archive, in which each of the two documents may be missing, or
something that is no archive. -/
inductive ApplicationFile where
  | archive (metadata core : Option Text)
  | damaged
  deriving DecidableEq, Repr

namespace ApplicationDef

def metadataSpace : Text :=
  "http://schemas.mathworks.com/appDesigner/app/2017/appMetadata"

def coreSpace : Text :=
  "http://purl.org/dc/elements/1.1/"

def parseDocument (document : Option Text) : Except Fault Xml.Element :=
  match document with
  | none => .error .missingDocument
  | some text =>
    match Xml.parse? text with
    | some root => .ok root
    | none => .error .malformedDocument

/-- The text of the description in a document, if it has one; it must not be empty. -/
def description (root : Xml.Element) (space : Text) : Except Fault (List Text) :=
  match root.child? space "description" with
  | none => .ok []
  | some element => if element.text = [] then .error .emptyDescription else .ok [element.text]

def docstringOf : ApplicationFile → Except Fault Text
  | .damaged => .error .damagedArchive
  | .archive metadata core => do
    let metadataRoot ← parseDocument metadata
    let coreRoot ← parseDocument core
    let inCore ← description coreRoot coreSpace
    let inMetadata ← description metadataRoot metadataSpace
    return Text.joinWith "\n\n" (inCore ++ inMetadata)

def read (name path : Text) (file : ApplicationFile) : Except Fault ApplicationDef := do
  return ⟨name, Definition.moduleOfPath path, ← docstringOf file⟩

end ApplicationDef

end MatlabDocs
