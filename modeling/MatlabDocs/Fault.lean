import MatlabDocs.Text.Quoted

/-!
# Faults

Why a request has no answer. A fault is not a notice: it ends the request.
-/

namespace MatlabDocs

inductive Fault where
  /-- The reading of a class never ends. -/
  | endless
  /-- The list of the members of a folder is asked for while it is made. -/
  | circularListing
  /-- The members of a folder are asked for that is gone. -/
  | missingFolder
  /-- A property block goes on with a property that was never named. -/
  | unknownProperty
  | unnamedMethod
  /-- No token is left after a method. -/
  | unfinishedMethod
  | unknownEncoding
  | damagedArchive
  | missingDocument
  | malformedDocument
  | emptyDescription
  /-- A module is entered as an object but not as a module. -/
  | unlistedModule
  /-- A module is entered as an object and as a module in different documents. -/
  | misplacedModule
  | emptyModuleName
  | unknownDirective
  | unknownRole
  /-- Descriptions of this sort are not entered in the index. -/
  | noIndexText
  /-- A property is asked for that was given up before this part of it was read. -/
  | incompleteProperty (part : Text)
  | noSuchPart (type part : Text)
  /-- Something that is no entity is asked. -/
  | noAnswer
  /-- Members are asked for of something that is no folder. -/
  | noMembers
  /-- Base classes are asked for of something that is no class. -/
  | noBases
  /-- Something that belongs to no module is to be linked. -/
  | noModule
  /-- Something that stands in no block of a class is asked for the attributes of its block. -/
  | noAttributes
  /-- Something that is no property is asked for a default value. -/
  | noDefault
  | noExceptionEntry
  | unloadedModule (name : Text)
  /-- A failure is reported without anything. -/
  | emptyReport
  /-- A failure is reported with something that is no text. -/
  | wordlessReport
  | unknownModule (name : Text)
  | unknownSort
  | unknownOption (name : Text)
  | invalidOption (name value reason : Text)
  /-- Members are named by an option, although members are turned off. -/
  | refusedMembers
  /-- The list of members to leave out is turned off. -/
  | refusedExclusion
  /-- The members to describe are to be listed, but all of them are wanted. -/
  | unlistedMembers
  | inheritedMembers
  | unorderedMembers
  /-- The access of a member is not said in words. -/
  | wordlessAccess
  /-- A docstring is not cut into lines. -/
  | unbrokenDocstring
  /-- A member has no docstring although it is analyzed. -/
  | missingDocstring
  deriving DecidableEq, Repr

namespace Fault

def kind : Fault → Text
  | endless => ""
  | circularListing => "RecursionError"
  | missingFolder => "FileNotFoundError"
  | unknownProperty => "KeyError"
  | unnamedMethod => "AttributeError"
  | unfinishedMethod => "TypeError"
  | unknownEncoding => "LookupError"
  | damagedArchive => "BadZipFile"
  | missingDocument => "KeyError"
  | malformedDocument => "ParseError"
  | emptyDescription => "TypeError"
  | unlistedModule => "KeyError"
  | misplacedModule => "AssertionError"
  | emptyModuleName => "IndexError"
  | unknownDirective => "KeyError"
  | unknownRole => "KeyError"
  | noIndexText => "NotImplementedError"
  | incompleteProperty _ => "KeyError"
  | noSuchPart _ _ => "AttributeError"
  | noAnswer => "AttributeError"
  | noMembers => "AttributeError"
  | noBases => "AttributeError"
  | noModule => "AttributeError"
  | noAttributes => "AttributeError"
  | noDefault => "AttributeError"
  | noExceptionEntry => "AttributeError"
  | unloadedModule _ => "MatcodeError"
  | emptyReport => "IndexError"
  | wordlessReport => "TypeError"
  | unknownModule _ => "KeyError"
  | unknownSort => "KeyError"
  | unknownOption _ => "KeyError"
  | invalidOption _ _ _ => "ValueError"
  | refusedMembers => "TypeError"
  | refusedExclusion => "AttributeError"
  | unlistedMembers => "TypeError"
  | inheritedMembers => "AttributeError"
  | unorderedMembers => "TypeError"
  | wordlessAccess => "TypeError"
  | unbrokenDocstring => "AttributeError"
  | missingDocstring => "TypeError"

/-- What is said about a fault; only some faults say more than their kind. -/
def message : Fault → Text
  | incompleteProperty part => part.quoted
  | noSuchPart type part => type.quoted ++ " object has no attribute " ++ part.quoted
  | unloadedModule name => "error importing " ++ name.quoted
  | unknownModule name => name.quoted
  | unknownOption name => name.quoted
  | invalidOption name value reason =>
    "(option: \"" ++ name ++ "\"; value: " ++ value ++ ")\n" ++ reason
  | _ => ""

def isMissingPart (fault : Fault) : Bool :=
  fault.kind == "AttributeError"

end Fault

end MatlabDocs
