import MatlabDocs.Text.Basic
import MatlabDocs.Text.Word

/-!
# Markup

An XML document is read as a list of tags and character data. Comments and processing
instructions are left out.
-/

namespace MatlabDocs.Xml

inductive Markup where
  | opening (name : Text) (attributes : List (Text × Text))
  | closing (name : Text)
  | characters (text : Text)
  | doctype
  deriving DecidableEq, Repr

def isSpace (c : Char) : Bool :=
  c == ' ' || c == '\t' || c == '\n' || c == '\r'

def isAllowed (c : Char) : Bool :=
  (0x20 ≤ c.toNat || isSpace c) && c.toNat != 0xFFFE && c.toNat != 0xFFFF

def isNameStart (c : Char) : Bool :=
  c.isAlpha || c == '_' || (127 < c.toNat && isWord c)

def isNamePart (c : Char) : Bool :=
  isNameStart c || c.isDigit || c == '-' || c == '.' || c.toNat == 0xB7

/-- A name is one part, or two parts with a colon between them. -/
def isName (name : Text) : Bool :=
  let isPart : Text → Bool
    | c :: rest => isNameStart c && rest.all isNamePart
    | [] => false
  let parts := name.splitOn ':'
  parts.length ≤ 2 && parts.all isPart

def readName? (text : Text) : Option (Text × Text) :=
  let name := text.takeWhile fun c => isNamePart c || c == ':'
  if isName name then some (name, text.drop name.length) else none

def splitAtMark? (mark : Text) : Text → Option (Text × Text)
  | [] => if mark = [] then some ([], []) else none
  | c :: rest =>
    if Text.startsWith (c :: rest) mark then some ([], (c :: rest).drop mark.length)
    else (splitAtMark? mark rest).map fun (before, after) => (c :: before, after)

def digitValue? (base : Nat) (c : Char) : Option Nat :=
  let value :=
    if c.isDigit then c.toNat - '0'.toNat
    else if 'a' ≤ c && c ≤ 'f' then c.toNat - 'a'.toNat + 10
    else if 'A' ≤ c && c ≤ 'F' then c.toNat - 'A'.toNat + 10
    else base
  if value < base then some value else none

def numeral? (base : Nat) (digits : Text) : Option Nat :=
  if digits = [] then none
  else digits.foldlM (fun value c => (digitValue? base c).map (value * base + ·)) 0

def characterOf? (code : Nat) : Option Char :=
  if code.isValidChar && isAllowed (Char.ofNat code) then some (Char.ofNat code) else none

def reference? (name : Text) : Option Char :=
  match name with
  | '#' :: 'x' :: digits => (numeral? 16 digits).bind characterOf?
  | '#' :: digits => (numeral? 10 digits).bind characterOf?
  | _ =>
    if name == "lt" then some '<'
    else if name == "gt" then some '>'
    else if name == "amp" then some '&'
    else if name == "quot" then some '"'
    else if name == "apos" then some '\x27'
    else none

def expandReferences? : Text → Option Text
  | [] => some []
  | c :: rest =>
    if c = '&' then
      let name := rest.takeWhile (· != ';')
      if name.length < rest.length then do
        let character ← reference? name
        let expanded ← expandReferences? (rest.drop (name.length + 1))
        return character :: expanded
      else none
    else if isAllowed c then (expandReferences? rest).map (c :: ·)
    else none
termination_by text => text.length
decreasing_by all_goals simp only [List.length_drop, List.length_cons]; omega

/-- Reads the attributes of a tag, with the text from the end of the tag on. -/
def readAttributes? (found : List (Text × Text)) (text : Text) :
    Option (List (Text × Text) × Text) :=
  match text.dropWhile isSpace with
  | [] => none
  | c :: rest =>
    if c = '>' || c = '/' then some (found, c :: rest)
    else if (text.takeWhile isSpace).isEmpty then none
    else do
      let (name, afterName) ← readName? (c :: rest)
      match afterName.dropWhile isSpace with
      | '=' :: afterEquals =>
        match afterEquals.dropWhile isSpace with
        | quote :: quoted =>
          let value := quoted.takeWhile (· != quote)
          let after := quoted.drop (value.length + 1)
          if (quote = '"' || quote = '\x27') && value.length < quoted.length &&
              !value.contains '<' then
            let expanded ← expandReferences? value
            if _shorter : after.length < text.length then
              readAttributes? (found ++ [(name, expanded)]) after
            else none
          else none
        | [] => none
      | _ => none
termination_by text.length
decreasing_by exact _shorter

def readTag? (text : Text) : Option (List Markup × Text) :=
  match text with
  | '/' :: rest => do
    let (name, afterName) ← readName? rest
    match afterName.dropWhile isSpace with
    | '>' :: after => return ([.closing name], after)
    | _ => none
  | _ => do
    let (name, afterName) ← readName? text
    let (attributes, ending) ← readAttributes? [] afterName
    match ending with
    | '>' :: after => return ([.opening name attributes], after)
    | '/' :: '>' :: after => return ([.opening name attributes, .closing name], after)
    | _ => none

/-- Passes over a document type, which may hold declarations in square brackets. -/
def afterDoctype? (depth : Nat) : Text → Option Text
  | [] => none
  | c :: rest =>
    if c = '[' then afterDoctype? (depth + 1) rest
    else if c = ']' then afterDoctype? (depth - 1) rest
    else if c = '>' && depth = 0 then some rest
    else afterDoctype? depth rest

/-- Reads what starts with an opening bracket, from the character after it on. -/
def readBracket? (text : Text) : Option (List Markup × Text) :=
  if Text.startsWith text "!--" then do
    let (comment, after) ← splitAtMark? "--" (text.drop 3)
    match after with
    | '>' :: rest => if comment.all isAllowed then return ([], rest) else none
    | _ => none
  else if Text.startsWith text "![CDATA[" then do
    let (content, after) ← splitAtMark? "]]>" (text.drop 8)
    if content.all isAllowed then return ([.characters content], after) else none
  else if Text.startsWith text "!DOCTYPE" then
    (afterDoctype? 0 (text.drop 8)).map fun after => ([.doctype], after)
  else if Text.startsWith text "?" then do
    let (content, after) ← splitAtMark? "?>" (text.drop 1)
    let target := content.takeWhile (!isSpace ·)
    if isName target && target.map Char.toLower ≠ "xml" && content.all isAllowed then
      return ([], after)
    else none
  else readTag? text

def readMarkup? (text : Text) : Option (List Markup) :=
  match text with
  | [] => some []
  | '<' :: rest => do
    let (markup, after) ← readBracket? rest
    if _shorter : after.length < rest.length + 1 then
      return markup ++ (← readMarkup? after)
    else none
  | c :: rest =>
    let tail := rest.takeWhile (· != '<')
    if (splitAtMark? "]]>" (c :: tail)).isSome then none
    else do
      let characters ← expandReferences? (c :: tail)
      return .characters characters :: (← readMarkup? (rest.drop tail.length))
termination_by text.length
decreasing_by all_goals simp only [List.length_drop, List.length_cons]; omega

end MatlabDocs.Xml
