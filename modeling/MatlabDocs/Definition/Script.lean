import MatlabDocs.Definition.Comment

/-!
# Scripts

A script is documented by the first comment block in it, wherever it stands.
-/

namespace MatlabDocs

structure ScriptDef where
  name : Text
  module : Text
  tokens : List Token
  docstring : Text
  deriving DecidableEq, Repr

namespace ScriptDef

def firstComment (tokens : List Token) : Text :=
  match tokens.dropWhile (fun token => !token.isComment) with
  | [] => []
  | comment :: rest => (readCommentBlock comment rest).text

def read (name module : Text) (tokens : List Token) : ScriptDef :=
  ⟨name, module, tokens, firstComment tokens⟩

end ScriptDef

end MatlabDocs
