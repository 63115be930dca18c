import MatlabDocs.Definition.Class.Methods
import MatlabDocs.Definition.Class.Properties
import MatlabDocs.Reading

/-!
# Reading a class

A class starts with its attributes, its name and its base classes on one line, and the
comment block below them. Then come blocks of properties, methods, events and
enumerations, up to the last `end`.
-/

namespace MatlabDocs.ClassState

def readBases (state : ClassState) : Reads ClassState := do
  if (← state.peek).isNewline then return state.advance 1
  let start ← state.skipIndent
  let parts := start.rest.takeWhile fun token => !isSpacing token
  let ended := start.advance parts.length
  let _ ← ended.count isSpacing
  let base := Token.concat parts
  let named := if base = [] then ended
    else ended.modify fun definition => { definition with bases := definition.bases ++ [base] }
  let stop ← (if (← ended.peek).isNewline then named else named.advance 1).skipIndent
  let after := if (← stop.peek).isOperator "&" then stop.advance 1 else stop
  progressing .bases state after fun _ => readBases after
termination_by state.rest.length

def addDocstring (state : ClassState) (text : Text) : ClassState :=
  state.modify fun definition => { definition with docstring := definition.docstring ++ text }

def readDocstring (state : ClassState) : Reads ClassState := do
  let token ← state.peek
  if !token.isComment then return state
  let commented := (state.addDocstring token.commentText).advance 1
  let ended := if (← commented.peek).isNewline then (commented.addDocstring "\n").advance 1
    else commented
  let after ← ended.skipIndent
  progressing .docstring state after fun _ => readDocstring after
termination_by state.rest.length

def readHead (state : ClassState) : Reads ClassState := do
  let (attributes, attributed) ← readAttributes ClassDef.classAttributes state
  let start ← (attributed.modify fun definition => { definition with attributes }).skipIndent
  let token ← start.peek
  let definition := start.definition
  let named := if token == ⟨.name, definition.name⟩ then start
    else start.notify (.unexpectedClassName token.value definition.name definition.module)
  let after ← (named.advance 1).skipIndent
  let next ← after.peek
  let signed ← if next.isOperator "<" then readBases (after.advance 1)
    else if next.isNewline then pure (after.advance 1)
    else pure after
  readDocstring (← signed.skipIndent)

def passBlock (state : ClassState) : Reads ClassState :=
  return (← (state.advance 1).pass fun token => !token.isKeyword "end").advance 1

def readBlock (opening : Token) (read : ClassState → Reads ClassState) (state : ClassState) :
    Reads ClassState := do
  if (← state.peek) == opening then read state else return state

def readBlocks (state : ClassState) : Reads ClassState := do
  if (← state.peek).isKeyword "end" then return state
  let start ← state.skipCommentary
  let afterProperties ← readBlock ⟨.keyword, "properties"⟩ readProperties start
  let afterMethods ← readBlock ⟨.keyword, "methods"⟩ readMethods afterProperties
  let afterEvents ← readBlock ⟨.keyword, "events"⟩ passBlock afterMethods
  let after ← readBlock ⟨.name, "enumeration"⟩ passBlock afterEvents
  progressing .blocks state after fun _ => readBlocks after
termination_by state.rest.length

end MatlabDocs.ClassState

namespace MatlabDocs

namespace ClassDef

/-- Reads a class from tokens of which the first is its keyword. When the tokens run out, what
was found is kept. -/
def read (name module : Text) (tokens : List Token) : Reading ClassDef :=
  let start : ClassState :=
    { position := 1, rest := tokens.drop 1, definition := { name, module, tokens } }
  let reading := do ClassState.readBlocks (← ClassState.readHead start)
  match reading with
  | .ok state =>
    ⟨.ok { state.definition with index := some state.position }, state.notices⟩
  | .error ⟨.exhausted, state⟩ =>
    ⟨.ok { state.definition with index := some state.position },
      state.notices ++ [Notice.parsingFailed module name]⟩
  | .error ⟨.expectedProperty, state⟩ => ⟨.ok state.definition, state.notices⟩
  | .error ⟨.stuck _, state⟩ => ⟨.error .endless, state.notices⟩
  | .error ⟨.fault fault, state⟩ => ⟨.error fault, state.notices⟩

end ClassDef

end MatlabDocs
