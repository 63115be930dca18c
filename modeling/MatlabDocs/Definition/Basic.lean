import MatlabDocs.Definition.Class.Read
import MatlabDocs.Definition.Script
import MatlabDocs.Source.Prepared
import MatlabDocs.Token.Lexer

/-!
# Definitions

A source file defines a class or a function if its first token below the comment header is
the keyword of one, and is a script otherwise. The description of an application comes
from its own file format.
-/

namespace MatlabDocs

structure ApplicationDef where
  name : Text
  module : Text
  docstring : Text
  deriving DecidableEq, Repr

inductive Definition where
  | function (definition : FunctionDef)
  | class (definition : ClassDef)
  | script (definition : ScriptDef)
  | application (definition : ApplicationDef)
  deriving DecidableEq, Repr

namespace Definition

def moduleOfPath (path : Text) : Text :=
  path.map fun c => if c = '/' then '.' else c

def ofCode (name module code : Text) : Reading Definition :=
  let tokens := lex (prepareCode code)
  match tokens with
  | first :: _ =>
    if first.isKeyword "classdef" then (ClassDef.read name module tokens).map .class
    else if first.isKeyword "function" then
      let reading := FunctionDef.read (.file name) module tokens
      ⟨.ok (.function reading.definition), reading.notices⟩
    else ⟨.ok (.script (ScriptDef.read name module (lex code))), []⟩
  | [] => ⟨.ok (.script (ScriptDef.read name module (lex code))), []⟩

end Definition

end MatlabDocs
