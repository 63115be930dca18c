import MatlabDocs.Reference.Description
import MatlabDocs.Reference.Resolve

/-!
# Roles

A role marks a piece of text as a reference. The text is a target, or a title with a target
in angle brackets. A tilde in front shortens the title to its last part, a dot in front asks
for a narrow lookup, and an exclamation mark means that the text refers to nothing.
-/

namespace MatlabDocs

structure PendingReference where
  document : Text
  role : Text
  explicitTitle : Bool
  target : Text
  module : Option Text
  class? : Option Text
  narrow : Bool
  title : Text
  deriving DecidableEq, Repr

inductive RoleNode where
  | literal (text : Text)
  | reference (reference : PendingReference)
  deriving DecidableEq, Repr

namespace RoleNode

def isCallRole (role : Text) : Bool :=
  role == "func" || role == "meth"

/-- Splits a title from a target in angle brackets, which end the text. -/
def splitTitle? (text : Text) : Option (Text × Text) :=
  let unended := if text.endsWith "\n" then text.dropLast else text
  match text with
  | [] => none
  | first :: rest =>
    let before := rest.takeWhile (· != '<')
    let target := unended.drop (before.length + 2)
    if before.length < rest.length && Text.endsWith target ">" then
      some (first :: Text.trimRight isBlank before, target.dropLast)
    else none

def callTitle (settings : DisplaySettings) (title : Text) : Text :=
  let call : Text := if settings.addFunctionParentheses then "()" else ""
  ReferenceTables.withoutCall title ++ call

/-- The part of a title that is shown when no title is given. -/
def shortTitle (settings : DisplaySettings) (title : Text) : Text :=
  let undotted := title.dropWhile (· == '.')
  let short := match undotted with
    | '~' :: rest =>
      match Text.splitLast? '.' rest with
      | some (_, last) => last
      | none => rest
    | _ => undotted
  settings.shown short

/-- The node for a piece of text with a role, in the scope of a module and a class. -/
def ofText (settings : DisplaySettings) (document : Text) (scope : NameScope) (role text : Text) :
    RoleNode :=
  match text with
  | '!' :: shown =>
    .literal (if isCallRole role then callTitle settings shown else shown)
  | _ =>
    let split := splitTitle? text
    let (title, target) := split.getD (text, text)
    let explicitTitle := split.isSome
    let called := if isCallRole role && !explicitTitle then callTitle settings title else title
    let uncalled := if isCallRole role then ReferenceTables.withoutCall target else target
    let shownTitle := if explicitTitle then called else shortTitle settings called
    let untilded := if explicitTitle then uncalled else uncalled.dropWhile (· == '~')
    let (narrow, target) := match untilded with
      | '.' :: rest => (true, rest)
      | other => (false, other)
    .reference
      { document, role, explicitTitle, target, module := scope.module, class? := scope.class?
        narrow, title := shownTitle }

def ofRole (settings : DisplaySettings) (document : Text) (scope : NameScope) (role text : Text) :
    Except Fault RoleNode :=
  if roleNames.contains role then .ok (ofText settings document scope role text)
  else .error .unknownRole

end RoleNode

end MatlabDocs
