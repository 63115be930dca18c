import MatlabDocs.Text.Digit
import MatlabDocs.Token.Basic
import MatlabDocs.Token.Head
import MatlabDocs.Token.Words

/-!
# Reading tokens

Code is cut into tokens from left to right. At each place the rules of the current mode
are tried in turn, and the first that applies says how many characters the next tokens
take. Where none applies, a line feed leads back to plain code, and any other character is
an error of its own. So every token is non-empty and nothing of the code is lost.
-/

namespace MatlabDocs

/-- What is being read: plain code, quoted text, a block comment, or what follows the
keyword of a function. -/
inductive LexMode where
  | code
  | quotedText
  | blockComment
  | functionHead
  deriving DecidableEq, Repr

def piecesLength : List (TokenKind × Nat) → Nat
  | [] => 0
  | (_, length) :: pieces => length + piecesLength pieces

theorem piecesLength_pos {pieces : List (TokenKind × Nat)} (kind : TokenKind) (more : Nat)
    (member : (kind, more + 1) ∈ pieces) : 0 < piecesLength pieces := by
  induction pieces with
  | nil => exact absurd member List.not_mem_nil
  | cons first rest ih =>
    rcases List.mem_cons.1 member with equality | inRest
    · rw [← equality]
      exact Nat.add_pos_left (Nat.succ_pos more) _
    · exact Nat.add_pos_right _ (ih inRest)

/-- The lengths of the next pieces of the code, and the mode after them. -/
structure LexStep where
  pieces : List (TokenKind × Nat)
  mode : LexMode
  advances : 0 < piecesLength pieces

namespace LexStep

def length (step : LexStep) : Nat :=
  piecesLength step.pieces

/-- A piece of one more character than `more`. -/
def single (kind : TokenKind) (more : Nat) (mode : LexMode) : LexStep where
  pieces := [(kind, more + 1)]
  mode
  advances := Nat.succ_pos _

end LexStep

/-- A rule sees the character before the place, if any, and the code from there on. -/
abbrev LexRule := Option Char → Text → Option LexStep

namespace LexRule

def atLineStart : Option Char → Bool
  | none => true
  | some c => c == '\n'

/-- After such a character a quote is the sign of a transposed matrix. -/
def endsOperand : Option Char → Bool
  | none => false
  | some c => isWord c || c == ')' || c == '}' || c == ']' || c == '.'

def shellCommand : LexRule
  | before, '!' :: rest =>
    if atLineStart before then some (.single .shellCommand (lineLength rest) .code) else none
  | _, _ => none

/-- A block comment opens when nothing but blanks follows on its line. -/
def blockCommentOpening : LexRule
  | _, '%' :: '{' :: rest =>
    let blanks := rest.takeWhile isBlank
    if blanks.contains '\n' then
      some (.single .blockComment (1 + (Text.trimRight (· != '\n') blanks).length) .blockComment)
    else none
  | _, _ => none

def lineComment : LexRule
  | _, '%' :: rest => some (.single .comment (lineLength rest) .code)
  | _, _ => none

/-- The keyword of a function stands at the start of a line, after blanks and blank lines. -/
def functionKeyword : LexRule
  | before, text =>
    let blanks := blankLength text
    match Text.afterStart? "function" (text.drop blanks) with
    | some (next :: _) =>
      if atLineStart before && (isBlank next || next == '[') then
        some (.single .keyword (blanks + 7) .functionHead)
      else none
    | _ => none

/-- A whole word that is a keyword or a known function. -/
def knownWord : LexRule
  | _, c :: rest =>
    let tail := rest.takeWhile isWord
    if isWord c then
      if keywords.contains (c :: tail) then some (.single .keyword tail.length .code)
      else if isBuiltin (c :: tail) then some (.single .builtinName tail.length .code)
      else none
    else none
  | _, _ => none

/-- What follows an ellipsis on its line is a comment. -/
def ellipsis : LexRule
  | _, '.' :: '.' :: '.' :: rest => some (.single .comment (2 + lineLength rest) .code)
  | _, _ => none

def comparison : LexRule
  | _, '=' :: '=' :: _ => some (.single .operator 1 .code)
  | _, '~' :: '=' :: _ => some (.single .operator 1 .code)
  | _, '&' :: '&' :: _ => some (.single .operator 1 .code)
  | _, '|' :: '|' :: _ => some (.single .operator 1 .code)
  | _, c :: _ =>
    if ['-', '<', '>', '&', '~', '|'].contains c then some (.single .operator 0 .code) else none
  | _, _ => none

def arithmetic : LexRule
  | _, '.' :: c :: _ =>
    if ['*', '^', '\\', '/'].contains c then some (.single .operator 1 .code) else none
  | _, c :: _ =>
    if ['*', '+', '/', '\\'].contains c then some (.single .operator 0 .code) else none
  | _, _ => none

def punctuation : LexRule
  | _, c :: _ =>
    if ['[', ']', '(', ')', '{', '}', ':', '@', '.', ',', '=', ';'].contains c then
      some (.single .punctuation 0 .code)
    else none
  | _, _ => none

def transpose : LexRule
  | before, '\x27' :: rest =>
    if endsOperand before then
      some (.single .operator (rest.takeWhile (· == '\x27')).length .code)
    else none
  | _, _ => none

def exponentLength : Text → Nat
  | mark :: rest =>
    if mark == 'e' || mark == 'E' || mark == 'f' then
      let sign := match rest with
        | c :: _ => if c == '+' || c == '-' then 1 else 0
        | [] => 0
      let digits := ((rest.drop sign).takeWhile Char.isDigit).length
      if digits = 0 then 0 else 1 + sign + digits
    else 0
  | [] => 0

def number : LexRule
  | _, c :: rest =>
    if isDigit c then
      let digits := (rest.takeWhile isDigit).length
      match rest.drop digits with
      | '.' :: fraction =>
        let places := (fraction.takeWhile isDigit).length
        let exponent := exponentLength (fraction.drop places)
        some (.single .float (digits + 1 + places + exponent) .code)
      | tail =>
        let exponent := exponentLength tail
        if exponent = 0 then some (.single .integer digits .code)
        else some (.single .float (digits + exponent) .code)
    else none
  | _, _ => none

/-- The length up to the closing double quote. Two quotes in a row stand for one inside the
text, but the last such pair closes the text if nothing else does. -/
def closingQuote? : Text → Option Nat
  | [] => none
  | '"' :: '"' :: rest =>
    match closingQuote? rest with
    | some length => some (length + 2)
    | none => some 1
  | c :: rest => if c = '"' then some 1 else (closingQuote? rest).map (· + 1)

def doubleQuoted : LexRule
  | _, '"' :: rest => (closingQuote? rest).map fun length => .single .string length .code
  | _, _ => none

def quoteOpening : LexRule
  | before, '\x27' :: _ =>
    if endsOperand before then none else some (.single .string 0 .quotedText)
  | _, _ => none

def name : LexRule
  | _, c :: rest =>
    if c.isAlpha || c == '_' then some (.single .name (rest.takeWhile isWord).length .code)
    else none
  | _, _ => none

def otherCharacter : LexRule
  | _, c :: _ => if c = '\n' then none else some (.single .text 0 .code)
  | _, _ => none

def quoteClosing : LexRule
  | _, text =>
    if text.contains '\x27' then
      some (.single .string (text.takeWhile (· != '\x27')).length .code)
    else none

def blockCommentClosing : LexRule
  | before, text =>
    let blanks := blankLength text
    if atLineStart before && Text.startsWith (text.drop blanks) "%\x7d" then
      some (.single .blockComment (blanks + 1) .code)
    else none

def blockCommentLine : LexRule
  | before, text =>
    if atLineStart before && text.contains '\n' then
      some (.single .blockComment (lineLength text) .blockComment)
    else none

def blockCommentCharacter : LexRule
  | _, c :: _ => if c = '\n' then none else some (.single .blockComment 0 .blockComment)
  | _, _ => none

def headWithCall : LexRule
  | _, text =>
    (headLengths? text).map fun head =>
      let outputs := match head.outputs with
        | none => []
        | some found =>
          [(.text, found.outputs), (.whitespace, found.beforeEquals), (.punctuation, 1),
           (.whitespace, found.afterEquals)]
      let call :=
        [(.functionName, head.call.name), (.punctuation, 1), (.text, head.call.arguments),
         (.punctuation, 1)]
      let front := (.whitespace, head.blanks) :: outputs ++ call
      let after := blankLength (text.drop (piecesLength front))
      { pieces := front ++ [(.whitespace, after)], mode := .code, advances :=
          piecesLength_pos .punctuation 0 (by simp [front, call]) }

def headWithoutCall : LexRule
  | _, text =>
    let blanks := blankLength text
    match text.drop blanks with
    | c :: rest =>
      if c.isAlpha || c == '_' then
        some
          { pieces := [(.text, blanks), (.functionName, (rest.takeWhile isWord).length + 1)]
            mode := .code
            advances := piecesLength_pos .functionName _
              (List.mem_cons_of_mem _ List.mem_cons_self) }
      else none
    | [] => none

end LexRule

open LexRule in
def LexMode.rules : LexMode → List LexRule
  | .code =>
    [shellCommand, blockCommentOpening, lineComment, functionKeyword, knownWord, ellipsis,
     comparison, arithmetic, punctuation, transpose, number, doubleQuoted, quoteOpening, name,
     otherCharacter]
  | .quotedText => [quoteClosing]
  | .blockComment => [blockCommentClosing, blockCommentLine, blockCommentCharacter]
  | .functionHead => [headWithCall, headWithoutCall]

def LexStep.recover (mode : LexMode) (c : Char) : LexStep :=
  if c = '\n' then .single .whitespace 0 .code else .single .error 0 mode

def LexMode.step (mode : LexMode) (before : Option Char) (c : Char) (rest : Text) : LexStep :=
  (mode.rules.findSome? fun rule => rule before (c :: rest)).getD (.recover mode c)

/-- Cuts the pieces off the text; a piece without characters gives no token. -/
def cutPieces : List (TokenKind × Nat) → Text → List Token
  | [], _ => []
  | (kind, length) :: pieces, text =>
    let value := text.take length
    let tokens := cutPieces pieces (text.drop length)
    if value = [] then tokens else ⟨kind, value⟩ :: tokens

def lexFrom (mode : LexMode) (before : Option Char) : Text → List Token
  | [] => []
  | c :: rest =>
    let step := mode.step before c rest
    let text := c :: rest
    cutPieces step.pieces text ++
      lexFrom step.mode (text.take step.length).getLast? (text.drop step.length)
termination_by text => text.length
decreasing_by
  have advances := (mode.step before c rest).advances
  simp only [List.length_drop, List.length_cons, LexStep.length]
  omega

def unixNewlines : Text → Text
  | [] => []
  | '\r' :: '\n' :: rest => '\n' :: unixNewlines rest
  | c :: rest => (if c = '\r' then '\n' else c) :: unixNewlines rest

/-- Code as it is read: without a byte-order mark in front, with plain line ends, and with
exactly one of them at the end and none at the start. -/
def normalizeCode (code : Text) : Text :=
  let unmarked := match code with
    | c :: rest => if c = Char.ofNat 0xFEFF then rest else c :: rest
    | [] => []
  Text.trim (· == '\n') (unixNewlines unmarked) ++ ['\n']

def lex (code : Text) : List Token :=
  lexFrom .code none (normalizeCode code)

end MatlabDocs
