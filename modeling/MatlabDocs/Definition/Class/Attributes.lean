import MatlabDocs.Definition.Class.Reader

/-!
# Attribute lists

The attributes of a class, or of a block of properties or methods, stand in parentheses.
Each is a name, which may have a value: a truth value, a word, a meta class, a quoted word,
or a list of these in curly braces.
-/

namespace MatlabDocs.ClassState

def readItems (items : List Text) (state : ClassState) : Reads (List Text × ClassState) := do
  let token ← state.peek
  if token.isPunctuation "\x7d" then return (items, state.advance 1)
  let start ← state.skipIndent
  let length ← start.count fun token => !token.isPunctuation "," && !token.isPunctuation "\x7d"
  let item := Token.concat (start.rest.take length)
  let ended := start.advance length
  let after := if (← ended.peek).isPunctuation "," then ended.advance 1 else ended
  progressing .items state after fun _ =>
    readItems (if item = [] then items else items ++ [item]) after
termination_by state.rest.length

/-- A word or the name of a meta class goes on to the next blank, comma or parenthesis. -/
def isWordPart (token : Token) : Bool :=
  !token.isIndent && !token.isPunctuation "," && !token.isPunctuation ")"

def readAttributeValue (name : Text) (attributes : Attributes) (state : ClassState) :
    Reads (Attributes × ClassState) := do
  let token ← state.peek
  if token == ⟨.name, "true"⟩ then return (attributes, state.advance 1)
  else if token == ⟨.name, "false"⟩ then
    return (attributes.insert name (.flag false), state.advance 1)
  else if token.kind == .name || token == ⟨.text, "?"⟩ then
    let length ← (state.advance 1).count isWordPart
    let word := Token.concat (state.rest.take (length + 1))
    let ended := state.advance (length + 1)
    let after := if (← ended.peek).isPunctuation ")" then ended else ended.advance 1
    return (attributes.insert name (.word word), after)
  else if token.isPunctuation "\x7b" then
    let (items, after) ← readItems [] (state.advance 1)
    return (attributes.insert name (.items items), after)
  else if token.kind == .string then
    let next ← (state.advance 1).peek
    if next.kind == .string then
      let quoted := token.value ++ token.value ++ next.value
      return (attributes.insert name (.word (quoted.trim (· == '\x27'))), state.advance 2)
    else return (attributes, state)
  else return (attributes, state)

/-- Reads the attributes up to the closing parenthesis. A bare name sets a known attribute. -/
def readAttributeList (known : List Text) (attributes : Attributes) (state : ClassState) :
    Reads (Attributes × ClassState) := do
  if (← state.peek).isPunctuation ")" then return (attributes, state.advance 1)
  let start ← state.skipIndent
  let token ← start.peek
  let name := token.value
  let isKnown := known.contains name
  let named :=
    if token.kind == .name then
      if isKnown then start.advance 1
      else (start.notify (.unexpectedAttribute name start.definition.module
        start.definition.name)).advance 1
    else start
  let found := if token.kind == .name && isKnown then attributes.insert name (.flag true)
    else attributes
  let stop ← named.skipIndent
  let next ← stop.peek
  if next.kind == .builtinName || next.isPunctuation "," then
    let after := stop.advance 1
    progressing .attributes state after fun _ => readAttributeList known found after
  else if next.isPunctuation "=" then
    let (valued, ended) ← readAttributeValue name found (← (stop.advance 1).skipIndent)
    let last ← ended.skipIndent
    let after := if (← last.peek).isPunctuation "," then last.advance 1 else last
    progressing .attributes state after fun _ => readAttributeList known valued after
  else progressing .attributes state stop fun _ => readAttributeList known found stop
termination_by state.rest.length

/-- Reads an attribute list if one comes next. When the tokens run out within it, the
reading stops in front of it. -/
def readAttributes (known : List Text) (state : ClassState) : Reads (Attributes × ClassState) :=
  let reading : Reads (Attributes × ClassState) := do
    let start ← state.skipIndent
    if (← start.peek).isPunctuation "(" then readAttributeList known {} (start.advance 1)
    else return ({}, start)
  match reading with
  | .ok found => .ok found
  | .error ⟨.exhausted, stop⟩ => .error ⟨.exhausted, { state with notices := stop.notices }⟩
  | .error halt => .error halt

end MatlabDocs.ClassState
