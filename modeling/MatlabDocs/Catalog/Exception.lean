import MatlabDocs.Catalog.Ask

/-!
# Exceptions

An exception of a program has a name and a path and nothing else to be told of. A failure is
reported with a text and, if there is one, with what caused it.
-/

namespace MatlabDocs

structure ExceptionDef where
  name : Text
  path : Text
  docstring : Text := ""
  deriving DecidableEq, Repr

namespace ExceptionDef

def shown (definition : ExceptionDef) : Text :=
  "<MatException: \"" ++ definition.name ++ "\">"

def ask (definition : ExceptionDef) (name : Text) (defaults : List Value) : Value :=
  Catalog.askNamed definition.name name defaults

end ExceptionDef

def Value.shownCause : Value → Text
  | .text value => value.quoted
  | .number value => Text.ofInt value
  | .flag value => if value then "True" else "False"
  | _ => "None"

def failureReport : List Value → Except Fault Text
  | [] => .error .emptyReport
  | [.text text] => .ok text
  | .text text :: cause :: _ => .ok (text ++ " (exception was: " ++ cause.shownCause ++ ")")
  | _ => .error .wordlessReport

end MatlabDocs
