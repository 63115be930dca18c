import MatlabDocs.Definition.Class.Attributes

/-!
# Method blocks

A method block holds functions, and signatures of methods that are defined in other files.
The signatures are passed over. Methods that get or set a property are not kept.
-/

namespace MatlabDocs.ClassState

/-- What the signature of a method that is defined elsewhere consists of. -/
def isSignaturePart (token : Token) : Bool :=
  token.kind == .name || token.kind == .functionName ||
    (token.kind == .punctuation &&
      (["[", "]", "=", "(", ")", ";", ","] : List Text).contains token.value)

def isAccessMethod (name : Text) : Bool :=
  let owner := (name.splitOn '.').headD []
  owner == "get" || owner == "set"

def readMethod (attributes : Attributes) (state : ClassState) : Reads ClassState := do
  let reading := FunctionDef.read .method state.definition.module state.rest
  let noticed := { state with notices := state.notices ++ reading.notices }
  match reading.definition.name, reading.definition.remaining with
  | none, _ => noticed.halt (.fault .unnamedMethod)
  | some _, none => noticed.halt (.fault .unfinishedMethod)
  | some name, some remaining =>
    let length := state.rest.length - remaining.length
    let signature :=
      { reading.definition with tokens := state.rest.take length, remaining := none }
    let method : MethodDef := ⟨name, signature, attributes⟩
    let kept :=
      if isAccessMethod name then noticed
      else noticed.modify fun definition =>
        { definition with methods := definition.methods.insert name method }
    (kept.advance length).skipSpacing

/-- Whether the state is at a token that belongs to a method defined elsewhere. The keyword of a
function counts if the name follows directly. -/
def atForeignMethod (state : ClassState) (token : Token) : Reads Bool :=
  if isSignaturePart token then .ok true
  else if token.isFunctionKeyword then
    match (state.advance 1).rest with
    | [] => state.halt .exhausted
    | next :: _ => .ok (next.kind == .functionName)
  else .ok false

def readMethodList (attributes : Attributes) (state : ClassState) : Reads ClassState := do
  if (← state.peek).isKeyword "end" then return state.advance 1
  let start ← state.skipCommentary
  let token ← start.peek
  if ← start.atForeignMethod token then
    match countWhile? isSpacing (start.rest.drop 1) with
    | none => start.halt .exhausted
    | some spacing =>
      let after := start.advance (1 + spacing)
      progressing .methods state after fun _ => readMethodList attributes after
  else if token.isKeyword "end" then return start.advance 2
  else
    let after ← readMethod attributes start
    progressing .methods state after fun _ => readMethodList attributes after
termination_by state.rest.length

def readMethods (state : ClassState) : Reads ClassState := do
  let (attributes, start) ← readAttributes ClassDef.methodAttributes (state.advance 1)
  readMethodList attributes start

end MatlabDocs.ClassState
