import MatlabDocs.Table

/-!
# Reference tables

Every described object and every module is entered in a table under its full name, with the
document that describes it. A module stands in both tables.
-/

namespace MatlabDocs

structure ObjectEntry where
  document : Text
  type : Text
  deriving DecidableEq, Repr

structure ModuleEntry where
  document : Text
  synopsis : Option Text := some []
  platform : Option Text := some []
  deprecated : Bool := false
  deriving DecidableEq, Repr

structure ReferenceTables where
  objects : NameTable ObjectEntry := {}
  modules : NameTable ModuleEntry := {}
  deriving DecidableEq, Repr

/-- An object as it is listed for other projects. Modules come first in a search. -/
structure ListedObject where
  name : Text
  type : Text
  document : Text
  anchor : Text
  priority : Nat
  deriving DecidableEq, Repr

def moduleAnchor (name : Text) : Text :=
  "module-" ++ name

namespace ReferenceTables

def clear (tables : ReferenceTables) (document : Text) : ReferenceTables where
  objects := tables.objects.filter fun _ entry => entry.document != document
  modules := tables.modules.filter fun _ entry => entry.document != document

def listed (tables : ReferenceTables) : List ListedObject :=
  (tables.modules.entries.map fun (name, entry) =>
    ⟨name, "module", entry.document, moduleAnchor name, 0⟩) ++
  (tables.objects.entries.map fun (name, entry) => ⟨name, entry.type, entry.document, name, 1⟩)

end ReferenceTables

end MatlabDocs
