import MatlabDocs.Text.Basic
import MatlabDocs.Text.Word

/-!
# Signatures without parentheses

A function with outputs may be declared without an argument list. It gets an empty one, so
that its name can be told from its outputs.
-/

namespace MatlabDocs

def isGap (c : Char) : Bool :=
  isIndent c || c == '.' || c == '\n'

def isListed (c : Char) : Bool :=
  isWord c || c == ',' || isGap c

def skipOne (expected : Char) : Text → Text
  | [] => []
  | c :: rest => if c = expected then rest else c :: rest

/-- A function signature with outputs, as found at the start of a text. -/
structure AssignedSignature where
  name : Text
  arguments : Text
  rest : Text
  deriving DecidableEq, Repr

def assignedSignature? (text : Text) : Option AssignedSignature := do
  let afterKeyword ← Text.afterStart? "function" (text.dropWhile isIndent)
  let afterOutputs :=
    skipOne ']' ((skipOne '[' (afterKeyword.dropWhile isGap)).dropWhile isListed)
  match afterOutputs.dropWhile isGap with
  | '=' :: afterEquals =>
    let fromName := afterEquals.dropWhile isGap
    let name := fromName.takeWhile isWord
    if name = [] then none
    else
      let fromArguments := skipOne '(' ((fromName.drop name.length).dropWhile isGap)
      let arguments := fromArguments.takeWhile isListed
      some ⟨name, arguments, skipOne ')' (fromArguments.drop arguments.length)⟩
  | _ => none

/-- The text of a signature, with parentheses after its name if it has no arguments. They
are put after every occurrence of the name in it. -/
def parenthesized (signature : AssignedSignature) (matched : Text) : Text :=
  if signature.arguments = [] && !matched.endsWith "()" then
    Text.replace signature.name (signature.name ++ "()") matched
  else matched

/-- Goes through the code, with a flag that says whether it is at the start of a line. -/
def parenthesizeFrom (lineStart : Bool) : Text → Text
  | [] => []
  | c :: rest =>
    match if lineStart then assignedSignature? (c :: rest) else none with
    | some signature =>
      let matched := (c :: rest).take (rest.length + 1 - signature.rest.length)
      parenthesized signature matched ++
        parenthesizeFrom (matched.getLast? == some '\n') (rest.drop (matched.length - 1))
    | none => c :: parenthesizeFrom (c == '\n') rest
termination_by text => text.length
decreasing_by all_goals simp only [List.length_drop, List.length_cons]; omega

def addParentheses (code : Text) : Text :=
  parenthesizeFrom true code

end MatlabDocs
