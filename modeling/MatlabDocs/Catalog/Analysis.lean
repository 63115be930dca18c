import MatlabDocs.Catalog.Members

/-!
# Analyses

The analysis of a module collects the docstrings of its members and of the members of its
classes, and numbers them in the order in which they are found. A module has to be loaded
before it is analyzed; a module that was not loaded at that time stays without an analysis.
-/

namespace MatlabDocs

namespace MemberDocs

def add (docs : MemberDocs) (space member tag : Text) (docstring : Value) : MemberDocs where
  docstrings := docs.docstrings.insert (space, member) docstring
  order := docs.order.insert tag docs.found
  found := docs.found + 1

def addClass (docs : MemberDocs) (catalog : Catalog) (package name : Text) (number : Nat)
    (definition : ClassDef) : Except Fault MemberDocs := do
  let members ← Catalog.membersOfClass number definition
  return members.entries.foldl (fun docs (member, value) =>
    docs.add (package ++ "." ++ name) member (name ++ "." ++ member)
      (.ofText? (catalog.docstringOf value))) docs

def addOwn (docs : MemberDocs) (catalog : Catalog) (package name : Text) (value : Value) :
    MemberDocs :=
  match catalog.docstringPart? value with
  | some docstring => docs.add package name name docstring
  | none => docs

/-- Adds a member of a module and, if it is a class, the members of the class. -/
def addMember (catalog : Catalog) (package : Text) (docs : MemberDocs) (member : Text × Value) :
    Except Fault MemberDocs :=
  let added := docs.addOwn catalog package member.1 member.2
  match catalog.classOf? member.2 with
  | some (number, definition) => added.addClass catalog package member.1 number definition
  | none => .ok added

def ofMembers (catalog : Catalog) (package : Text) (members : List (Text × Value)) :
    Except Fault MemberDocs :=
  members.foldlM (addMember catalog package) {}

end MemberDocs

namespace Catalog

/-- The path of the folder whose analysis belongs to a module. -/
def analysisPath (module : Text) : Loads Text := do
  let catalog ← get
  match catalog.analyzed.get? module with
  | some (some path) => return path
  | some none => throw (.unloadedModule module)
  | none =>
    match (catalog.modules.get? module).bind catalog.folder? with
    | none =>
      set { catalog with analyzed := catalog.analyzed.insert module none }
      throw (.unloadedModule module)
    | some folder =>
      let analyses :=
        if catalog.analyses.contains folder.path then catalog.analyses
        else catalog.analyses.insert folder.path { module }
      set { catalog with
        analyses, analyzed := catalog.analyzed.insert module (some folder.path) }
      return folder.path

/-- The docstrings of the members of the module at a path. They are collected once. -/
def memberDocs (path : Text) : Loads MemberDocs := do
  match (← get).analyses.get? path with
  | none => return {}
  | some analysis =>
    match analysis.docs with
    | some docs => return docs
    | none =>
      match (← get).modules.get? analysis.module with
      | none => throw (.unknownModule analysis.module)
      | some number =>
        let members ← membersOfFolder number
        let docs ← MemberDocs.ofMembers (← get) analysis.module members
        modify fun catalog => { catalog with
          analyses := catalog.analyses.insert path { analysis with docs := some docs } }
        return docs

def collectedDocs (catalog : Catalog) (path : Text) : MemberDocs :=
  ((catalog.analyses.get? path).bind Analysis.docs).getD {}

end Catalog

end MatlabDocs
