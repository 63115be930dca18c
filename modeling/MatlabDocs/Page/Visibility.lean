import MatlabDocs.Page.Basic

/-!
# Visibility of members

A member is private, protected, hidden, or open to friends by the attributes of its block.
Such a member is only described when the options admit it, and a member without a docstring
only when the options ask for those.
-/

namespace MatlabDocs

structure MemberTraits where
  name : Text
  documented : Bool
  attributes : Attributes := {}
  /-- The docstring of the member is known from the analysis of the module. -/
  analyzed : Bool := false
  deriving DecidableEq, Repr

namespace MemberTraits

def stated? (traits : MemberTraits) (name : Text) : Option AttributeValue :=
  (traits.attributes.get? name).filter fun value => value.toValue.isPresent

def hasAccess (traits : MemberTraits) (access : Text) : Bool :=
  match traits.stated? "Access" with
  | some value => value == .word access
  | none => traits.stated? "GetAccess" == some (.word access)

def isHidden (traits : MemberTraits) : Bool :=
  (traits.stated? "Hidden").isSome

/-- Whether access is given to a list of classes, or to a class. -/
def isFriend (traits : MemberTraits) : Except Fault Bool :=
  match traits.stated? "Access" with
  | some (.items _) => .ok true
  | some (.word value) => .ok (value.startsWith "?")
  | some (.flag _) => .error .wordlessAccess
  | none => .ok false

def friends (traits : MemberTraits) : List Text :=
  match traits.attributes.get? "Access" with
  | some (.items values) => values
  | some (.word value) => [value]
  | _ => []

def admitsFriends (choice : NameChoice) (traits : MemberTraits) : Bool :=
  match choice with
  | .all => true
  | .names names => traits.friends.any names.contains

end MemberTraits

inductive Restriction where
  | privateMember
  | protectedMember
  | hiddenMember
  | friendMember
  deriving DecidableEq, Repr

namespace MemberTraits

def restriction? (traits : MemberTraits) : Except Fault (Option Restriction) := do
  if traits.hasAccess "private" then return some .privateMember
  else if traits.hasAccess "protected" then return some .protectedMember
  else if traits.isHidden then return some .hiddenMember
  else if ← traits.isFriend then return some .friendMember
  else return none

def isAdmitted (options : EntryOptions) (traits : MemberTraits) : Restriction → Bool
  | .privateMember => options.privateMembers.admits traits.name
  | .protectedMember => options.protectedMembers.admits traits.name
  | .hiddenMember => options.hiddenMembers.admits traits.name
  | .friendMember => admitsFriends options.friendMembers traits

/-- Whether a member is described. Its restrictions do not matter when members are named one by
one. -/
def isKept (options : EntryOptions) (wantAll : Bool) (traits : MemberTraits) :
    Except Fault Bool := do
  let told := traits.documented || options.withUndocumented
  let restriction ← if wantAll then traits.restriction? else pure none
  match restriction with
  | some restriction => return isAdmitted options traits restriction && told
  | none => return traits.analyzed || told

end MemberTraits

end MatlabDocs
