import MatlabDocs.Definition.Class.Attributes

/-!
# Property blocks

A property is declared by its name, which may be followed by a size, a class and
validators, by a default value, and by a comment. The comment lines above a property come
before the comment behind it.
-/

namespace MatlabDocs.ClassState

def property? (state : ClassState) (name : Text) : Option PropertyDef :=
  state.definition.properties.get? name

def setProperty (state : ClassState) (name : Text) (property : PropertyDef) : ClassState :=
  state.modify fun definition =>
    { definition with properties := definition.properties.insert name property }

def updateProperty (state : ClassState) (name : Text) (change : PropertyDef → PropertyDef) :
    Reads ClassState :=
  match state.property? name with
  | some property => .ok (state.setProperty name (change property))
  | none => state.halt (.fault .unknownProperty)

/-- What may stand between the name of a property and its default value. -/
def isSpecifier (token : Token) : Bool :=
  token.kind == .integer || token.kind == .string || token.kind == .name || token.kind == .text ||
    (token.kind == .punctuation &&
      (["@", "(", ")", ",", ":", "\x7b", "\x7d", "."] : List Text).contains token.value)

def isOpening (token : Token) : Bool :=
  token.isPunctuation "(" || token.isPunctuation "\x7b" || token.isPunctuation "["

def isClosing (token : Token) : Bool :=
  token.isPunctuation ")" || token.isPunctuation "\x7d" || token.isPunctuation "]"

def isEllipsis (token : Token) : Bool :=
  token.isComment && token.value.startsWith "..."

/-- Reads a default value up to the end of its line, or up to a comment, outside of all
brackets. A line within brackets starts after its indentation. -/
def readDefault (depth : Int) (lineStart : Bool) (value : Text) (state : ClassState) :
    Reads (Text × ClassState) := do
  let token ← state.peek
  let isMore := (!token.isNewline && !token.isComment) || depth > 0 || isEllipsis token
  if !isMore then return (value, state)
  let after := state.advance 1
  if isOpening token then
    progressing .defaultValue state after fun _ =>
      readDefault (depth + 1) false (value ++ token.value) after
  else if isClosing token then
    progressing .defaultValue state after fun _ =>
      readDefault (depth - 1) false (value ++ token.value) after
  else if isEllipsis token then
    if (← after.peek).isNewline then
      let next := after.advance 1
      progressing .defaultValue state next fun _ => readDefault depth true (value ++ ['\n']) next
    else progressing .defaultValue state after fun _ => readDefault depth false value after
  else if lineStart then
    let indented ← state.skipIndent
    progressing .defaultValue state indented fun _ => readDefault depth false value indented
  else
    progressing .defaultValue state after fun _ =>
      readDefault depth token.isNewline (value ++ token.value) after
termination_by state.rest.length

/-- The place after a comment line and its indentation, with the docstring so far; if the tokens
run out after the line end, only the place. -/
def readCommentEnd (docstring : Text) (state : ClassState) :
    Reads (Except ClassState (Text × ClassState)) := do
  if (← state.peek).isNewline then
    let nextLine := state.advance 1
    match nextLine.skipIndent with
    | .ok start => return .ok (docstring ++ ['\n'], start)
    | .error _ => return .error nextLine
  else return .ok (docstring, state)

/-- The comment lines above a property: the state after them, and the property if one
follows directly. An empty line parts them from what follows. -/
def readPropertyComment (attributes : Attributes) (name docstring : Text) (state : ClassState) :
    Reads (Text × ClassState) := do
  let comment ← state.peek
  if !comment.isComment then return (name, state)
  let lineEnd ← (state.advance 1).skipIndent
  match ← readCommentEnd (docstring ++ comment.commentText) lineEnd with
  | .error stop => return (name, stop)
  | .ok (docstring, start) =>
    let token ← start.peek
    if token.kind == .name then
      let property : PropertyDef := { attributes, docstring? := some (some docstring) }
      return (token.value, start.setProperty token.value property)
    else if token.isNewline then
      match start.skipSpacing with
      | .ok after => return (name, after)
      | .error _ => return (name, start)
    else
      progressing .propertyComment state start fun _ =>
        readPropertyComment attributes name docstring start
termination_by state.rest.length

def readDefaultValue (state : ClassState) : Reads (Option (Option Text) × ClassState) := do
  if (← state.peek).isPunctuation "=" then
    let (value, stop) ← readDefault 0 false [] (← (state.advance 1).skipIndent)
    let after := if (← stop.peek).isComment then stop else stop.advance 1
    if value = [] then return (none, after)
    else return (some (some (value.trimRight fun c => c == ';' || c == ' ')), after)
  else return (some none, state)

def readPropertyEnd (name : Text) (state : ClassState) : Reads ClassState := do
  let (default, valued) ← readDefaultValue (← state.skipIndent)
  let updated ← valued.updateProperty name fun property =>
    match default with
    | some value => { property with default? := some value }
    | none => property
  let hasDocstring := (updated.property? name).any (·.docstring?.isSome)
  let token ← updated.peek
  let docstring := if token.isComment then some token.commentText else none
  let documented :=
    if hasDocstring then updated
    else
      match updated.property? name with
      | some property => updated.setProperty name { property with docstring? := some docstring }
      | none => updated
  (if token.isComment then documented.advance 1 else documented).skipSpacing

inductive PropertyStep where
  | next (name : Text) (state : ClassState)
  | ended (state : ClassState)

def readSemicolon (name : Text) (state : ClassState) : Reads PropertyStep := do
  let after ← (state.advance 1).skipIndent
  let token ← after.peek
  if token.isNewline then
    let finished ← (after.advance 1).updateProperty name fun property =>
      { property with
        default? := some (property.default?.getD none)
        docstring? := some (property.docstring?.getD none) }
    return .next name finished
  else if token.isComment then
    let documented ← after.updateProperty name fun property =>
      { property with docstring? := some (some (token.commentText ++ ['\n'])) }
    return .next name (← readPropertyEnd name (documented.advance 1))
  else return .next name (← readPropertyEnd name after)

def readDeclaration (attributes : Attributes) (name : Text) (state : ClassState) :
    Reads PropertyStep := do
  let (commented, start) ← readPropertyComment attributes name [] (← state.skipSpacing)
  let token ← start.peek
  if token.kind == .name || token.kind == .builtinName || token.kind == .functionName then
    let isNew := token.kind != .name || (start.property? token.value).isNone
    let declared := if isNew then start.setProperty token.value { attributes } else start
    let specified ← (declared.advance 1).pass isSpecifier
    if (← specified.peek).isPunctuation ";" then return .next token.value specified
    else return .next token.value (← readPropertyEnd token.value specified)
  else if token.isKeyword "end" then return .ended (start.advance 2)
  else if token.isPunctuation ";" then readSemicolon commented start
  else
    let notice := Notice.expectedProperty start.definition.module start.definition.name
      token.kind.label token.value.quoted
    (start.notify notice).halt .expectedProperty

def readDeclarations (attributes : Attributes) (name : Text) (state : ClassState) :
    Reads ClassState := do
  if (← state.peek).isKeyword "end" then return state.advance 1
  match ← readDeclaration attributes name state with
  | .ended after => return after
  | .next name after =>
    progressing .declarations state after fun _ => readDeclarations attributes name after
termination_by state.rest.length

def readProperties (state : ClassState) : Reads ClassState := do
  let (attributes, start) ← readAttributes ClassDef.propertyAttributes (state.advance 1)
  readDeclarations attributes [] start

end MatlabDocs.ClassState
