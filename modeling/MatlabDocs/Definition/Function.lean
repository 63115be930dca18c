import MatlabDocs.Definition.Comment
import MatlabDocs.Notice

/-!
# Functions

A function is read from the tokens of its signature, of the comment block below it, and of
its body, which ends with the matching `end`. Whatever is found is kept, also when the
tokens run out or a sign of the signature is missing.
-/

namespace MatlabDocs

/-- `remaining` holds the tokens after the body. It is absent when no token is left, and
when a sign of the signature is missing. -/
structure FunctionDef where
  name : Option Text
  module : Text
  tokens : List Token
  docstring : Text := []
  outputs : Option (List Text) := none
  arguments : Option (List Text) := none
  remaining : Option (List Token) := none
  deriving DecidableEq, Repr

structure FunctionReading where
  definition : FunctionDef
  notices : List Notice := []
  deriving DecidableEq, Repr

namespace FunctionDef

/-- Whether a function is read under the name of its file or as a method of a class, which
takes the name in its signature. -/
inductive Naming where
  | file (name : Text)
  | method
  deriving DecidableEq, Repr

def Naming.given : Naming → Option Text
  | file name => some name
  | method => none

def Naming.shown : Naming → Text
  | file name => name
  | method => "None"

def skipBlankTokens (tokens : List Token) : List Token :=
  tokens.dropWhile fun token => token.kind == .whitespace || token.isIndent

/-- The outputs of a signature: separated by commas, or a single piece that blanks or tabs
divide. -/
def outputNames (text : Text) : Option (List Text) :=
  let inner := text.trim fun c => c == '[' || c == ' ' || c == ']'
  match (inner.splitOn ',').map Text.strip with
  | [only] =>
    if only = [] then none
    else if only.any isIndent then some ((only.splitOn '\t').flatMap (·.splitOn ' '))
    else some [only]
  | names => some names

def argumentNames (text : Text) : List Text :=
  (text.splitOn ',').map Text.strip

/-- The counters that find the end of a body: blocks that are open, and round and curly
brackets that are open. -/
structure Nesting where
  blocks : Nat
  brackets : Int
  deriving DecidableEq, Repr

def blockKeywords : List Text :=
  ["arguments", "for", "if", "switch", "try", "while", "parfor"]

/-- An `end` closes a block only outside of brackets, since inside it is an index. -/
def Nesting.after (nesting : Nesting) (token : Token) : Nesting :=
  if token.kind == .keyword && blockKeywords.contains token.value then
    { nesting with blocks := nesting.blocks + 1 }
  else if token.isFunctionKeyword then { nesting with blocks := nesting.blocks + 1 }
  else if token.isKeyword "end" && nesting.brackets == 0 then
    { nesting with blocks := nesting.blocks - 1 }
  else if token.isPunctuation "(" || token.isPunctuation "\x7b" then
    { nesting with brackets := nesting.brackets + 1 }
  else if token.isPunctuation ")" || token.isPunctuation "\x7d" then
    { nesting with brackets := nesting.brackets - 1 }
  else nesting

/-- The tokens from the one after the body on. The last token is never consumed. -/
def afterBody (nesting : Nesting) (current : Token) : List Token → List Token
  | [] => [current]
  | next :: rest =>
    let counted := nesting.after current
    if counted.blocks = 0 then next :: rest else afterBody counted next rest

def runsOut (naming : Naming) (definition : FunctionDef) (notices : List Notice) :
    FunctionReading :=
  ⟨definition, notices ++ [Notice.parsingFailed definition.module naming.shown]⟩

def readBody (definition : FunctionDef) (notices : List Notice) (tokens : List Token) :
    FunctionReading :=
  match skipBlankTokens tokens with
  | [] => ⟨definition, notices⟩
  | first :: rest =>
    let block := readCommentBlock first rest
    let remaining := afterBody ⟨1, 0⟩ block.ending block.rest
    ⟨{ definition with docstring := block.text, remaining := some remaining }, notices⟩

def readClosing (naming : Naming) (definition : FunctionDef) (notices : List Notice) :
    List Token → FunctionReading
  | [] => runsOut naming definition notices
  | closing :: rest =>
    if closing.isPunctuation ")" then readBody definition notices rest
    else ⟨definition, notices ++ [Notice.expectedSign definition.module naming.shown ")"]⟩

/-- Reads the arguments, if an opening parenthesis comes next; any other token in its place
is passed over. -/
def readArguments (naming : Naming) (definition : FunctionDef) (notices : List Notice) :
    List Token → FunctionReading
  | [] => runsOut naming definition notices
  | opening :: rest =>
    if opening.isPunctuation "(" then
      match rest with
      | [] => runsOut naming definition notices
      | first :: afterFirst =>
        if first.kind == .text then
          let arguments := some (argumentNames first.value)
          readClosing naming { definition with arguments } notices afterFirst
        else if first.isPunctuation ")" then
          readClosing naming definition notices (first :: afterFirst)
        else readClosing naming definition notices afterFirst
    else readBody definition notices rest

/-- Reads the name. A function whose name differs from that of its file is noticed. -/
def readName (naming : Naming) (definition : FunctionDef) : List Token → FunctionReading
  | [] => runsOut naming definition []
  | token :: rest =>
    let found := token.value.trim fun c => c == ' ' || c == '(' || c == ')'
    match naming with
    | .method => readArguments naming { definition with name := some found } [] rest
    | .file name =>
      let notices :=
        if token.kind == .functionName && found == name then []
        else [Notice.unexpectedFunctionName found name definition.module]
      readArguments naming definition notices rest

def readOutputs (naming : Naming) (definition : FunctionDef) : List Token → FunctionReading
  | [] => runsOut naming definition []
  | first :: rest =>
    if first.kind == .text then
      let withOutputs := { definition with outputs := outputNames first.value }
      match rest with
      | [] => runsOut naming withOutputs []
      | equals :: afterEquals =>
        if equals.isPunctuation "=" then
          readName naming withOutputs (skipBlankTokens afterEquals)
        else ⟨withOutputs, [Notice.expectedSign definition.module naming.shown "="]⟩
    else if first.kind == .functionName then readName naming definition (first :: rest)
    else readName naming definition rest

/-- Reads a function from tokens of which the first is its keyword. -/
def read (naming : Naming) (module : Text) (tokens : List Token) : FunctionReading :=
  let definition : FunctionDef := { name := naming.given, module, tokens }
  match tokens with
  | [] => runsOut naming definition []
  | _ :: rest => readOutputs naming definition (skipBlankTokens rest)

end FunctionDef

end MatlabDocs
