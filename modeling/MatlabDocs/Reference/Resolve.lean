import MatlabDocs.Reading
import MatlabDocs.Reference.Lookup

/-!
# Resolving references

A reference that is found leads to an anchor: in the document that holds the reference, or
in another one.
-/

namespace MatlabDocs

/-- Where a reference leads; the anchor is in the same document if no document is given. -/
structure ResolvedReference where
  document : Option Text
  anchor : Text
  title : Text
  deriving DecidableEq, Repr

/-- The roles, in the order in which a reference without a role tries them. -/
def roleNames : List Text :=
  ["data", "exc", "func", "class", "const", "attr", "meth", "mod", "obj", "scpt", "app"]

def Notice.ambiguousReference (target : Text) (names : List Text) : Notice :=
  source ("more than one target found for cross-reference " ++ target.quoted ++ ": " ++
    Text.joinWith ", " names)

namespace ReferenceTables

def leadTo (source document anchor title : Text) : ResolvedReference :=
  ⟨if source = document then none else some document, anchor, title⟩

def moduleTitle (name : Text) (entry : ModuleEntry) : Text :=
  let part (before : Text) (text : Option Text) (after : Text) : Text :=
    match text with
    | some (c :: rest) => before ++ (c :: rest) ++ after
    | _ => []
  let deprecated : Text := if entry.deprecated then " (deprecated)" else ""
  name ++ part ": " entry.synopsis [] ++ deprecated ++ part " (" entry.platform ")"

def resolve (tables : ReferenceTables) (source : Text) (scope : NameScope) (role target : Text)
    (narrow : Bool) : Reading (Option ResolvedReference) :=
  let found := tables.findObjects scope role target narrow
  let notices :=
    if 1 < found.length then [Notice.ambiguousReference target (found.map Prod.fst)] else []
  match found with
  | [] => ⟨.ok none, notices⟩
  | (name, entry) :: _ =>
    if entry.type == "module" then
      match tables.modules.get? name with
      | none => ⟨.error .unlistedModule, notices⟩
      | some module =>
        if module.document = entry.document then
          ⟨.ok (some (leadTo source module.document (moduleAnchor name)
            (moduleTitle name module))), notices⟩
        else ⟨.error .misplacedModule, notices⟩
    else ⟨.ok (some (leadTo source entry.document name name)), notices⟩

/-- Adds what a reference without a role leads to under one more role. -/
def addRole (tables : ReferenceTables) (source : Text) (scope : NameScope) (target : Text)
    (narrow : Bool) (reading : Reading (List (Text × ResolvedReference))) (role : Text) :
    Reading (List (Text × ResolvedReference)) :=
  match reading.result with
  | .error _ => reading
  | .ok found =>
    let name : Text := "mat:" ++ role
    let next := tables.resolve source scope name target narrow
    ⟨next.result.map fun reference => found ++ (reference.map (name, ·)).toList,
      reading.notices ++ next.notices⟩

def resolveAny (tables : ReferenceTables) (source : Text) (scope : NameScope) (target : Text)
    (narrow : Bool) : Reading (List (Text × ResolvedReference)) :=
  roleNames.foldl (tables.addRole source scope target narrow) ⟨.ok [], []⟩

end ReferenceTables

end MatlabDocs
