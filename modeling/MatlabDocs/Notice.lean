import MatlabDocs.Text.Basic

/-!
# Notices

What is told to the writer of a documentation while it is built.
-/

namespace MatlabDocs

inductive Severity where
  | warning
  | error
  | report
  deriving DecidableEq, Repr

structure Notice where
  severity : Severity
  text : Text
  deriving DecidableEq, Repr

namespace Notice

/-- Notices about source files name the extension that reads them. -/
def sender : Text :=
  "[sphinxcontrib-matlabdomain] "

def source (text : Text) : Notice :=
  ⟨.warning, sender ++ text⟩

def parsingFailed (module : Text) (name : Text) : Notice :=
  source ("Parsing failed in " ++ module ++ "." ++ name ++ ". Check if valid MATLAB code.")

def expectedSign (module : Text) (name : Text) (sign : Text) : Notice :=
  source ("Parsing failed in " ++ module ++ "." ++ name ++ ". Expected \"" ++ sign ++ "\".")

def unexpectedFunctionName (found name module : Text) : Notice :=
  source ("Unexpected function name: \"" ++ found ++ "\". Expected \"" ++ name ++
    "\" in module \"" ++ module ++ "\".")

def unexpectedClassName (found name module : Text) : Notice :=
  source ("Unexpected class name: \"" ++ found ++ "\". Expected \"" ++ name ++ "\" in \"" ++
    module ++ "." ++ name ++ "\".")

def unexpectedAttribute (found module name : Text) : Notice :=
  source ("Unexpected class attribute: \"" ++ found ++ "\". In \"" ++ module ++ "." ++ name ++
    "\".")

/-- The token is shown by its kind and its quoted text. -/
def expectedProperty (module name kind quoted : Text) : Notice :=
  source ("Expected property in " ++ module ++ "." ++ name ++ " - got (Token." ++ kind ++ ", " ++
    quoted ++ ")")

end Notice

end MatlabDocs
