import MatlabDocs.Token.Head

/-!
# Signatures of descriptions

A description names an object by a dotted name, which arguments and a return value may
follow. In generated documentation the module may be set apart by a double colon.
-/

namespace MatlabDocs

/-- The parts of a signature. The path ends in a dot. -/
structure SignatureParts where
  explicitModule : Option Text := none
  path : Option Text
  name : Text
  arguments : Option Text
  returned : Option Text
  deriving DecidableEq, Repr

namespace SignatureParts

def isPathCharacter (c : Char) : Bool :=
  isWord c || c == '+' || c == '@' || c == '.'

/-- A name that no dot divides, with the sign of a package or a class folder in front. -/
def isSimpleName : Text → Bool
  | [] => false
  | c :: rest =>
    if c == '+' || c == '@' then !rest.isEmpty && rest.all isWord else (c :: rest).all isWord

def splitPath (dotted : Text) : Option Text × Text :=
  let path := Text.trimRight (· != '.') dotted
  (if path = [] then none else some path, dotted.drop path.length)

/-- Nothing but one line feed may follow a signature. -/
def isEnd (text : Text) : Bool :=
  text == [] || text == ['\n']

def returned? (text : Text) : Option Text :=
  match text.dropWhile isBlank with
  | '-' :: '>' :: rest =>
    let annotated := rest.dropWhile isBlank
    let length := lineLength annotated
    if isEnd (annotated.drop length) then some (annotated.take length) else none
  | _ => none

/-- The arguments and the return value, from the character after the opening parenthesis on. The
arguments go up to the last parenthesis that lets the rest be read. -/
def call? (text : Text) : Option (Text × Option Text) :=
  greatest? (fun length =>
    if text[length]? = some ')' then
      let after := text.drop (length + 1)
      let returned := match returned? after with
        | some found => some (some found)
        | none => if isEnd after then some none else none
      returned.map (text.take length, ·)
    else none) (lineLength text)

def tail? (text : Text) : Option (Option Text × Option Text) :=
  match text.dropWhile isBlank with
  | [] => some (none, none)
  | '(' :: rest => (call? rest).map fun (arguments, returned) => (some arguments, returned)
  | _ => none

/-- Reads a dotted name and what follows it; the path has at least `least` characters. -/
def read? (least : Nat) (text : Text) : Option SignatureParts :=
  let dotted := text.takeWhile isPathCharacter
  let (path, name) := splitPath dotted
  if isSimpleName name && path.all (least ≤ ·.length) then
    (tail? (text.drop dotted.length)).map fun (arguments, returned) =>
      { path, name, arguments, returned }
  else none

def ofDescription? (text : Text) : Option SignatureParts :=
  read? 1 text

/-- The signature of generated documentation, in which the module may be set apart. -/
def ofGenerated? (text : Text) : Option SignatureParts :=
  let dotted := text.takeWhile isPathCharacter
  match text.drop dotted.length with
  | ':' :: ':' :: rest =>
    if dotted = [] then none
    else (read? 2 rest).map fun parts => { parts with explicitModule := some dotted }
  | _ => read? 2 text

def pieces (parts : SignatureParts) : List (Option Text) :=
  [parts.explicitModule.map (· ++ "::"), parts.path, some parts.name, parts.arguments,
   parts.returned]

end SignatureParts

end MatlabDocs
