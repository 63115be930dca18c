import MatlabDocs.Catalog.Part

/-!
# Sorts of entries

An entry of a page describes one thing. Its sort says by which directive, how its name is
resolved, and where it stands among the other members.
-/

namespace MatlabDocs

inductive EntrySort where
  | module
  | function
  | classEntry
  | method
  | script
  | exception
  | attributeEntry
  | data
  | instanceAttribute
  | application
  deriving DecidableEq, Repr

namespace EntrySort

/-- The word for a sort in requests and in notices. -/
def label : EntrySort → Text
  | module => "module"
  | function => "function"
  | classEntry => "class"
  | method => "method"
  | script => "script"
  | exception => "exception"
  | attributeEntry => "attribute"
  | data => "data"
  | instanceAttribute => "instanceattribute"
  | application => "application"

def all : List EntrySort :=
  [.module, .function, .classEntry, .method, .script, .exception, .attributeEntry, .data,
   .instanceAttribute, .application]

def ofLabel? (label : Text) : Option EntrySort :=
  all.find? fun sort => sort.label == label

def directive : EntrySort → Text
  | instanceAttribute => "attribute"
  | sort => sort.label

/-- Entries within a class are named by the class and the member. -/
def isClassLevel : EntrySort → Bool
  | method => true
  | attributeEntry => true
  | instanceAttribute => true
  | _ => false

def group : EntrySort → Nat
  | exception => 10
  | classEntry => 20
  | function => 30
  | data => 40
  | method => 50
  | attributeEntry => 60
  | instanceAttribute => 60
  | _ => 0

def describesMembers : EntrySort → Bool
  | module => true
  | classEntry => true
  | data => true
  | exception => true
  | _ => false

/-- The sort of entry for a member: a constant is an attribute of the class, another property an
attribute of its instances. -/
def ofMember? (catalog : Catalog) : Value → Option EntrySort
  | .entity (.method _ _) => some .method
  | .entity (.property owner name) =>
    (catalog.property? owner name).map fun property =>
      match property.attributes.get? "Constant" with
      | some value => if value.toValue.isPresent then .attributeEntry else .instanceAttribute
      | none => .instanceAttribute
  | .entity (.definition number) =>
    (catalog.definition? number).map fun
      | .function _ => .function
      | .class _ => .classEntry
      | .script _ => .script
      | .application _ => .application
  | _ => none

end EntrySort

end MatlabDocs
