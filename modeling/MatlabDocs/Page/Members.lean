import MatlabDocs.Page.Content
import MatlabDocs.Page.Visibility

/-!
# Members on pages

The members of a thing are collected, those that are to be described are chosen, and they are
put in order.
-/

namespace MatlabDocs

structure PageMember where
  name : Text
  value : Value

namespace Page

mutual

/-- Whether two lookups of a name gave equal things. Properties are made anew each time. -/
def isEqual : Value → Value → Bool
  | .nothing, .nothing => true
  | .flag a, .flag b => a == b
  | .number a, .number b => a == b
  | .text a, .text b => a == b
  | .list a, .list b => areEqual a b
  | .mapping a, .mapping b => haveEqual a b
  | .contents a, .contents b => a == b
  | .internal a name, .internal b other => a == b && name == other
  | .entity (.property _ _), .entity _ => false
  | .entity a, .entity b => a == b
  | _, _ => false

def areEqual : List Value → List Value → Bool
  | [], [] => true
  | a :: as, b :: bs => isEqual a b && areEqual as bs
  | _, _ => false

def haveEqual : List (Text × Value) → List (Text × Value) → Bool
  | [], [] => true
  | (name, a) :: as, (other, b) :: bs => name == other && isEqual a b && haveEqual as bs
  | _, _ => false

end

/-- Whether members of one name that stand side by side are equal. -/
def isOrderable : List (Text × Value) → Bool
  | (name, value) :: (other, next) :: rest =>
    (name != other || isEqual value next) && isOrderable ((other, next) :: rest)
  | _ => true

/-- Orders members by name. Members of one name have to be equal. -/
def sortMembers (members : List (Text × Value)) : Except Fault (List (Text × Value)) :=
  let sorted := members.mergeSort fun a b => SourceTree.nameLe a.1 b.1
  if isOrderable sorted then .ok sorted else .error .unorderedMembers

/-- The members that a module is asked for; a missing one is noticed. -/
def moduleMembers (value : Value) : List Text → Writes (List (Text × Value))
  | [] => return []
  | name :: names => do
    let found ← try
        loads (Catalog.partOrNothing value name)
      catch fault =>
        if fault.isMissingPart then pure .nothing else throw fault
    if found.isPresent then return (name, found) :: (← moduleMembers value names)
    let catalog ← catalog
    let shown : Text := match value with
      | .entity entity => catalog.nameOf entity
      | _ => "???"
    warn ("missing attribute mentioned in :members: or __all__: module " ++ shown ++
      ", attribute " ++ name)
    moduleMembers value names

/-- The names of all members of a module. A fault that shows while they are first looked at is
met again. -/
def allNames (value : Value) : Writes (List Text) := do
  let members ← try
      loads (Catalog.membersOf value)
    catch fault =>
      if fault.isMissingPart then loads (Catalog.membersOf value) else throw fault
  return members.map Prod.fst

def namedMembers (finding : Finding) (analyzed : List Text) :
    List Text → Writes (List (Text × Value))
  | [] => return []
  | name :: names => do
    let found ← try
        loads (some <$> Catalog.part finding.value name)
      catch fault =>
        if fault.isMissingPart then pure none else throw fault
    match found with
    | some value => return (name, value) :: (← namedMembers finding analyzed names)
    | none =>
      unless analyzed.contains name do
        warn ("missing attribute " ++ name ++ " in object " ++ finding.name.fullName)
      namedMembers finding analyzed names

def partNames (value : Value) : Writes (List Text) := do
  match ← loads (Catalog.part? value "__dict__") with
  | some (.mapping entries) => return entries.map Prod.fst
  | some (.contents number) => return ((← catalog).contentsOf number).map Prod.fst
  | _ => return []

def allMembers (value : Value) : Writes (List (Text × Value)) := do
  (← partNames value).mapM fun name => do
    return (name, ← loads (Catalog.partOrNothing value name))

def analyzedDocs (analysis : Option Text) : Writes (Table (Text × Text) Value) := do
  match analysis with
  | some path => return (← loads (Catalog.memberDocs path)).docstrings
  | none => return {}

/-- The members of what an entry is about: all of them, or those that the options name. -/
def membersOf (sort : EntrySort) (options : EntryOptions) (finding : Finding)
    (analysis : Option Text) (wantAll : Bool) : Writes (List (Text × Value)) := do
  if sort = .module then
    if wantAll then moduleMembers finding.value (← allNames finding.value)
    else
      match options.members with
      | .all => throw .unlistedMembers
      | .names names => moduleMembers finding.value names
  else
    let docs ← analyzedDocs analysis
    if wantAll then
      if options.withInherited then throw .inheritedMembers
      sortMembers (← allMembers finding.value)
    else
      match options.members with
      | .all => throw .unlistedMembers
      | .names names =>
        let space := EntryName.dotted finding.name.path
        let analyzed := docs.keys.filterMap fun (other, member) =>
          if other = space then some member else none
        sortMembers (← namedMembers finding analyzed names)

/-- The attributes of the block that a member stands in. Only methods and properties have them; a
folder or class must not have a member of that name. -/
def attributesOf (value : Value) : Loads Attributes := do
  let catalog ← get
  match value with
  | .entity (.method owner name) =>
    return ((catalog.method? owner name).map MethodDef.attributes).getD {}
  | .entity (.property owner name) =>
    return ((catalog.property? owner name).map PropertyDef.attributes).getD {}
  | _ =>
    let found ← Catalog.partOrNothing value "attrs"
    if found.isPresent then throw .noAttributes
    return {}

def isDocumented (catalog : Catalog) (value : Value) : Bool :=
  (EntryName.present? (catalog.docstringOf value)).isSome

/-- A member, if it is to be described. What is said about skipping it comes last. -/
def chooseMember (settings : PageSettings) (options : EntryOptions) (wantAll analyzed : Bool)
    (name : Text) (value : Value) : Writes (Option PageMember) := do
  let attributes ← if wantAll then loads (attributesOf value) else pure {}
  let traits : MemberTraits :=
    { name, documented := isDocumented (← catalog) value, attributes, analyzed }
  let kept ← traits.isKept options wantAll
  let skipped := (settings.skipped.get? name).getD !kept
  return if skipped then none else some { name, value }

def chooseMembers (settings : PageSettings) (options : EntryOptions) (finding : Finding)
    (analysis : Option Text) (wantAll : Bool) (members : List (Text × Value)) :
    Writes (List PageMember) := do
  let docs ← analyzedDocs analysis
  let space := EntryName.dotted finding.name.path
  let chosen ← members.mapM fun (name, value) =>
    chooseMember settings options wantAll (docs.contains (space, name)) name value
  return chosen.filterMap id

end Page

end MatlabDocs
