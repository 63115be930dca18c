import MatlabDocs.Proofs.Function.SpacedSignature
import MatlabDocs.Proofs.Token.CommentTokens

/-!
# Function heads with any blanks

The head of a function is what follows its keyword.  A head with a call is cut at the last equals
sign and at the last pair of parentheses of its line, whatever the gaps between its parts.  Without
a call on the line only its first word is taken, and what stands in front of a word is an error if
it is neither a blank nor a letter.
-/

namespace MatlabDocs

open List

def pieceTokens (kind : TokenKind) (value : Text) : List Token :=
  if value = [] then [] else [⟨kind, value⟩]

theorem Fills.pieceTokens_append {pieces : List (TokenKind × Nat)} {text : Text}
    {tokens : List Token} (fills : Fills pieces text tokens) (kind : TokenKind) (value : Text) :
    Fills ((kind, value.length) :: pieces) (value ++ text) (pieceTokens kind value ++ tokens) := by
  rw [pieceTokens]
  split
  · rename_i empty
    rw [empty]
    exact .empty fills
  · exact .piece ‹_› fills

/-- Outputs up to the equals sign, and the gap behind it. -/
structure HeadOutputs where
  text : Text
  gap : Gap
  text_ne_nil : text ≠ []
  visible : ∀ c ∈ text.head?, isBlank c = false
  oneLine : '\n' ∉ text

/-- A head with a call: its name goes up to the last opening parenthesis. -/
structure CalledHead where
  gap : Gap
  outputs : Option HeadOutputs
  name : Text
  arguments : Text
  ending : Text
  name_ne_nil : name ≠ []
  visible : ∀ c ∈ name.head?, isBlank c = false
  oneLine : '\n' ∉ name ++ (arguments ++ ending)
  noEquals : '=' ∉ name ++ (arguments ++ ending)
  noOpening : '(' ∉ arguments ++ ending
  noClosing : ')' ∉ ending

namespace CalledHead

variable (head : CalledHead)

def callText : Text :=
  head.name ++ '(' :: (head.arguments ++ ')' :: head.ending)

def assignmentText : Text :=
  match head.outputs with
  | none => []
  | some found => found.text ++ '=' :: found.gap.text

def text : Text :=
  head.gap.text ++ (head.assignmentText ++ head.callText)

def frontText : Text :=
  head.gap.text ++ (head.assignmentText ++ (head.name ++ '(' :: (head.arguments ++ [')'])))

def lengths : HeadLengths where
  blanks := head.gap.text.length
  outputs := head.outputs.map fun found => ⟨found.text.length, 0, found.gap.text.length⟩
  call := ⟨head.name.length, head.arguments.length⟩

def outputTokens : List Token :=
  match head.outputs with
  | none => []
  | some found =>
    ⟨.text, found.text⟩ :: ⟨.punctuation, "="⟩ :: pieceTokens .whitespace found.gap.text

def callTokens : List Token :=
  ⟨.functionName, head.name⟩ :: ⟨.punctuation, "("⟩ ::
    (pieceTokens .text head.arguments ++ [⟨.punctuation, ")"⟩])

def tokens : List Token :=
  pieceTokens .whitespace head.gap.text ++ (head.outputTokens ++ head.callTokens)

theorem text_eq : head.text = head.frontText ++ head.ending := by
  simp [text, frontText, callText]

theorem callLengths?_callText (rest : Text) :
    callLengths? (head.callText ++ '\n' :: rest) =
      some ⟨head.name.length, head.arguments.length⟩ := by
  have oneLine := head.oneLine
  have noOpening := head.noOpening
  simp only [mem_append, not_or] at oneLine noOpening
  have shape : head.callText ++ '\n' :: rest =
      head.name ++ '(' :: (head.arguments ++ ')' :: (head.ending ++ '\n' :: rest)) := by
    simp [callText]
  rw [shape]
  exact callLengths?_call head.name_ne_nil oneLine.1 oneLine.2.1 oneLine.2.2 noOpening.1
    noOpening.2 head.noClosing

theorem not_mem_callText {sign : Char}
    (absent : sign ∉ head.name ++ (head.arguments ++ head.ending))
    (notOpening : sign ≠ '(') (notClosing : sign ≠ ')') : sign ∉ head.callText := by
  simp only [mem_append, not_or] at absent
  simp [callText, absent, notOpening, notClosing]

theorem head?_callText_append (rest : Text) :
    ∀ c ∈ (head.callText ++ rest).head?, isBlank c = false := by
  obtain ⟨first, others, shape⟩ := exists_cons_of_ne_nil head.name_ne_nil
  have visible := head.visible
  rw [shape] at visible
  simpa [callText, shape] using visible

private theorem head?_assignmentText_append (rest : Text) :
    ∀ c ∈ (head.assignmentText ++ (head.callText ++ rest)).head?, isBlank c = false := by
  rw [assignmentText]
  cases head.outputs with
  | none => exact head.head?_callText_append rest
  | some found =>
    obtain ⟨first, others, shape⟩ := exists_cons_of_ne_nil found.text_ne_nil
    have visible := found.visible
    rw [shape] at visible
    simpa [shape] using visible

variable {rest : Text}

theorem headLengths?_text (below : ∀ c ∈ (rest.dropWhile isBlank).head?, c ≠ '=') :
    headLengths? (head.text ++ '\n' :: rest) = some head.lengths := by
  have oneLine := head.not_mem_callText head.oneLine (by decide) (by decide)
  have noEquals := head.not_mem_callText head.noEquals (by decide) (by decide)
  have regrouped : head.text ++ '\n' :: rest =
      head.gap.text ++ (head.assignmentText ++ (head.callText ++ '\n' :: rest)) := by
    simp [text]
  rw [headLengths?, regrouped,
    blankLength_append head.gap.isBlank_of_mem (head.head?_assignmentText_append _)]
  refine greatest?_eq_some head.gap.text.length (Nat.le_refl _) ?_
    (fun other more bounded => by omega)
  rw [drop_left]
  dsimp only
  cases outputs : head.outputs with
  | none =>
    rw [assignmentText, outputs, nil_append,
      assignedCallLengths?_eq_none below oneLine noEquals, head.callLengths?_callText rest,
      lengths, outputs]
    rfl
  | some found =>
    have gapOneLine : '\n' ∉ found.gap.text ++ head.callText := by
      simp [found.gap.not_mem (show isIndent '\n' = false by decide), oneLine]
    have gapNoEquals : '=' ∉ found.gap.text ++ head.callText := by
      simp [found.gap.not_mem (show isIndent '=' = false by decide), noEquals]
    have spaced := spacedCallLengths?_call found.gap.isBlank_of_mem
      (head.head?_callText_append ('\n' :: rest)) (head.callLengths?_callText rest)
    rw [← append_assoc] at spaced
    have shape : head.assignmentText ++ (head.callText ++ '\n' :: rest) =
        found.text ++ '=' :: ((found.gap.text ++ head.callText) ++ '\n' :: rest) := by
      simp [assignmentText, outputs]
    have assigned := assignedCallLengths?_outputs below found.text_ne_nil found.oneLine
      gapOneLine gapNoEquals spaced
    rw [shape, assigned, lengths, outputs]
    rfl

private theorem fills_tokens : Fills head.lengths.front head.frontText head.tokens := by
  have closing : Fills [(.punctuation, 1)] [')'] [⟨.punctuation, ")"⟩] :=
    @Fills.piece .punctuation [')'] _ _ _ (by simp) .nil
  have opening := @Fills.piece .punctuation ['('] _ _ _ (by simp)
    (closing.pieceTokens_append .text head.arguments)
  have call := @Fills.piece .functionName head.name _ _ _ head.name_ne_nil opening
  rw [tokens, frontText, outputTokens, assignmentText, HeadLengths.front, lengths]
  cases head.outputs with
  | none => exact call.pieceTokens_append .whitespace head.gap.text
  | some found =>
    have equals := @Fills.piece .punctuation ['='] _ _ _ (by simp)
      (call.pieceTokens_append .whitespace found.gap.text)
    have outputs := @Fills.piece .text found.text _ _ _ found.text_ne_nil
      (@Fills.empty .whitespace _ _ _ equals)
    have whole := outputs.pieceTokens_append .whitespace head.gap.text
    simpa [callTokens] using whole

theorem lexFrom_text (below : ∀ c ∈ (rest.dropWhile isBlank).head?, c ≠ '=')
    (before : Option Char) :
    lexFrom .functionHead before (head.text ++ '\n' :: rest) = head.tokens ++
      (pieceTokens .whitespace ((head.ending ++ '\n' :: rest).takeWhile isBlank) ++
        lexFrom .code (')' :: (head.ending ++ '\n' :: rest).takeWhile isBlank).getLast?
          ((head.ending ++ '\n' :: rest).dropWhile isBlank)) := by
  obtain ⟨step, applied, mode, pieces⟩ :=
    headWithCall_of_headLengths? before (head.headLengths?_text below)
  let blanks := (head.ending ++ '\n' :: rest).takeWhile isBlank
  let behind := (head.ending ++ '\n' :: rest).dropWhile isBlank
  have split : head.ending ++ '\n' :: rest = blanks ++ behind :=
    takeWhile_append_dropWhile.symm
  have whole : head.text ++ '\n' :: rest = (head.frontText ++ blanks) ++ behind := by
    rw [text_eq, append_assoc, split, append_assoc]
  have front := head.fills_tokens
  have dropped : (head.text ++ '\n' :: rest).drop (piecesLength head.lengths.front) =
      head.ending ++ '\n' :: rest := by
    rw [text_eq, append_assoc, ← front.length_eq, drop_left]
  have fills := front.append (Fills.nil.pieceTokens_append .whitespace blanks)
  rw [append_nil, append_nil] at fills
  rw [dropped] at pieces
  rw [← show step.pieces = head.lengths.front ++ [(.whitespace, blanks.length)] from pieces]
    at fills
  rw [whole] at applied ⊢
  have applies : (LexMode.functionHead.rules.findSome? fun rule => rule before
      ((head.frontText ++ blanks) ++ behind)) = some step := by
    rw [LexMode.rules, findSome?_cons, applied]
  have last : (head.frontText ++ blanks).getLast? = (')' :: blanks).getLast? := by
    rw [getLast?_append, frontText]
    simp [getLast?_append, getLast?_cons]
  rw [lexFrom_of_fills applies fills, mode, last, append_assoc]

end CalledHead

def tokensBelow (rest : Text) : List Token :=
  lexFrom .code ('\n' :: rest.takeWhile isBlank).getLast? (rest.dropWhile isBlank)

/-- Where nothing follows a call on its line, the blanks behind it go on below the line. -/
theorem CalledHead.lexFrom_text_of_blank (head : CalledHead) {rest : Text}
    (blank : ∀ c ∈ head.ending, isBlank c)
    (below : ∀ c ∈ (rest.dropWhile isBlank).head?, c ≠ '=') (before : Option Char) :
    lexFrom .functionHead before (head.text ++ '\n' :: rest) = head.tokens ++
      (pieceTokens .whitespace (head.ending ++ '\n' :: rest.takeWhile isBlank) ++
        tokensBelow rest) := by
  have taken : (head.ending ++ '\n' :: rest).takeWhile isBlank =
      head.ending ++ '\n' :: rest.takeWhile isBlank := by
    rw [takeWhile_append_of_pos blank, takeWhile_cons_of_pos (by decide)]
  have dropped : (head.ending ++ '\n' :: rest).dropWhile isBlank = rest.dropWhile isBlank := by
    rw [dropWhile_append_of_pos blank, dropWhile_cons_of_pos (by decide)]
  have last : (')' :: (head.ending ++ '\n' :: rest.takeWhile isBlank)).getLast? =
      ('\n' :: rest.takeWhile isBlank).getLast? := by
    rw [← cons_append, getLast?_append,
      getLast?_eq_some_getLast (cons_ne_nil '\n' _), Option.some_or]
  rw [head.lexFrom_text below before, taken, dropped, last, tokensBelow]

def isUncalledCharacter (c : Char) : Bool :=
  isAsciiWord c || isIndent c || c == ',' || c == '[' || c == ']' || c == '='

/-- A line without parentheses and with one equals sign at most, behind which something follows. -/
structure Uncalled (line : Text) : Prop where
  characters : ∀ c ∈ line, isUncalledCharacter c
  afterEquals : ∀ front back, line = front ++ '=' :: back →
    '=' ∉ back ∧ ∃ c ∈ back, isBlank c = false

variable {line : Text}

theorem Uncalled.not_mem (uncalled : Uncalled line) {sign : Char}
    (other : isUncalledCharacter sign = false) : sign ∉ line :=
  fun member => ne_of_test (uncalled.characters sign member) other rfl

theorem Uncalled.of_append {front : Text} (uncalled : Uncalled (front ++ line)) :
    Uncalled line where
  characters := fun c member => uncalled.characters c (mem_append_right front member)
  afterEquals := by
    rintro before back rfl
    exact uncalled.afterEquals (front ++ before) back (append_assoc _ _ _).symm

theorem Uncalled.drop (uncalled : Uncalled line) (length : Nat) : Uncalled (line.drop length) := by
  rw [← take_append_drop length line] at uncalled
  exact uncalled.of_append

theorem exists_dropWhile_append (visible : ∃ c ∈ line, isBlank c = false) :
    ∃ first back, line = line.takeWhile isBlank ++ first :: back ∧
      ∀ rest, (line ++ rest).dropWhile isBlank = first :: (back ++ rest) := by
  have notAllBlank : line.dropWhile isBlank ≠ [] := by
    obtain ⟨c, member, isVisible⟩ := visible
    intro allBlank
    rw [dropWhile_eq_nil_iff.mp allBlank c member] at isVisible
    cases isVisible
  obtain ⟨first, back, isBehind⟩ := exists_cons_of_ne_nil notAllBlank
  refine ⟨first, back, by rw [← isBehind, takeWhile_append_dropWhile], fun rest => ?_⟩
  rw [dropWhile_append, isBehind]
  rfl

theorem blankLength_le_of_visible (visible : ∃ c ∈ line, isBlank c = false) (rest : Text) :
    blankLength (line ++ rest) ≤ line.length := by
  obtain ⟨first, back, _, starts⟩ := exists_dropWhile_append visible
  have whole := congrArg length (@takeWhile_append_dropWhile _ isBlank (line ++ rest))
  simp only [starts, length_append, length_cons] at whole
  rw [blankLength]
  omega

namespace Uncalled

variable {line rest : Text} (uncalled : Uncalled line)

include uncalled

theorem callLengths?_eq_none : callLengths? (line ++ '\n' :: rest) = none := by
  rw [callLengths?, lineLength_append (uncalled.not_mem (by decide)), take_left]
  refine greatest?_eq_none fun name _ => if_neg ?_
  rintro ⟨_, opening⟩
  exact uncalled.not_mem (by decide) (mem_of_getElem? opening)

private theorem spacedCallLengths?_eq_none (visible : ∃ c ∈ line, isBlank c = false) :
    spacedCallLengths? (line ++ '\n' :: rest) = none := by
  refine greatest?_eq_none fun blanks bounded => ?_
  have inLine := Nat.le_trans bounded (blankLength_le_of_visible visible _)
  rw [drop_append_of_le_length inLine, (uncalled.drop blanks).callLengths?_eq_none]
  rfl

variable (below : ∀ c ∈ (rest.dropWhile isBlank).head?, c ≠ '=')

include below

theorem assignedCallLengths?_eq_none : assignedCallLengths? (line ++ '\n' :: rest) = none := by
  rw [assignedCallLengths?, lineLength_append (uncalled.not_mem (by decide))]
  refine greatest?_eq_none fun outputs bounded => ?_
  rw [drop_append_of_le_length bounded]
  have later := uncalled.drop outputs
  generalize line.drop outputs = behind at later
  split
  · rfl
  · dsimp only
    rw [drop_blankLength]
    split
    · rename_i after shape
      rw [dropWhile_append] at shape
      cases isBehind : behind.dropWhile isBlank with
      | nil =>
        rw [isBehind, isEmpty_nil, if_pos rfl, dropWhile_cons_of_pos (by decide)]
          at shape
        exact absurd rfl (below '=' (by simp [shape]))
      | cons first back =>
        -- The equals sign stands on the line, and something follows it there.
        rw [isBehind, isEmpty_cons, if_neg (by simp), cons_append] at shape
        obtain ⟨rfl, rfl⟩ := List.cons.inj shape
        have split : behind = behind.takeWhile isBlank ++ '=' :: back := by
          rw [← isBehind, takeWhile_append_dropWhile]
        obtain ⟨_, visible⟩ := later.afterEquals _ back split
        rw [split, append_cons] at later
        rw [later.of_append.spacedCallLengths?_eq_none visible]
        rfl
    · rfl

theorem headLengths?_eq_none (visible : ∃ c ∈ line, isBlank c = false) :
    headLengths? (line ++ '\n' :: rest) = none := by
  refine greatest?_eq_none fun blanks bounded => ?_
  have inLine := Nat.le_trans bounded (blankLength_le_of_visible visible _)
  have later := uncalled.drop blanks
  rw [drop_append_of_le_length inLine]
  dsimp only
  rw [later.assignedCallLengths?_eq_none below, later.callLengths?_eq_none]
  rfl

end Uncalled

section

variable {before : Option Char} {rest : Text}

theorem headWithCall_eq_none {text : Text} (noHead : headLengths? text = none) :
    LexRule.headWithCall before text = none := by
  rw [LexRule.headWithCall, noHead]
  rfl

theorem isAsciiWord_of_initial {c : Char} (initial : c.isAlpha || c == '_') : isAsciiWord c := by
  simp only [Bool.or_eq_true] at initial
  rcases initial with alpha | underscore
  · simp [isAsciiWord, Char.isAlphanum, alpha]
  · simp [isAsciiWord, underscore]

/-- Where there is no call, the first word is taken with the blanks in front of it. -/
theorem lexFrom_word {blanks word : Text} {first : Char} (blank : ∀ c ∈ blanks, isBlank c)
    (initial : first.isAlpha || first == '_') (isWord_word : ∀ c ∈ word, isWord c)
    (ends : EndsWord rest)
    (noHead : headLengths? (blanks ++ (first :: word ++ rest)) = none) :
    lexFrom .functionHead before (blanks ++ (first :: word ++ rest)) =
      pieceTokens .text blanks ++ ⟨.functionName, first :: word⟩ ::
        lexFrom .code (first :: word).getLast? rest := by
  have ascii := isAsciiWord_of_initial initial
  have length : blankLength (blanks ++ first :: (word ++ rest)) = blanks.length :=
    blankLength_append blank (by simpa using not_isBlank_of_isAsciiWord ascii)
  have taken : (word ++ rest).takeWhile isWord = word := takeWhile_append_of_head? isWord_word ends
  obtain ⟨step, applied, mode, pieces⟩ : ∃ step,
      LexRule.headWithoutCall before (blanks ++ first :: (word ++ rest)) = some step ∧
        step.mode = .code ∧
        step.pieces = [(.text, blanks.length), (.functionName, (first :: word).length)] := by
    rw [LexRule.headWithoutCall]
    simp only [length, drop_left, initial, if_true, taken]
    exact ⟨_, rfl, rfl, rfl⟩
  have fills := (@Fills.piece .functionName (first :: word) _ _ _ (by simp)
    .nil).pieceTokens_append .text blanks
  rw [append_nil, ← pieces] at fills
  have applies : (LexMode.functionHead.rules.findSome? fun rule => rule before
      ((blanks ++ (first :: word)) ++ rest)) = some step := by
    rw [cons_append] at noHead
    rw [append_assoc, cons_append, LexMode.rules, findSome?_cons,
      headWithCall_eq_none noHead, findSome?_cons, applied]
  have last : (blanks ++ first :: word).getLast? = (first :: word).getLast? := by
    rw [getLast?_append, getLast?_eq_some_getLast (cons_ne_nil first word), Option.some_or]
  rw [← append_assoc, lexFrom_of_fills applies fills, mode, last, append_assoc]
  rfl

/-- Where neither a call nor a word is found, a character is an error of its own. -/
theorem lexFrom_error {c : Char} (noHead : headLengths? (c :: rest) = none) (inLine : c ≠ '\n')
    (noWord : ∀ first ∈ ((c :: rest).dropWhile isBlank).head?,
      (first.isAlpha || first == '_') = false) :
    lexFrom .functionHead before (c :: rest) =
      ⟨.error, [c]⟩ :: lexFrom .functionHead (some c) rest := by
  have noName : LexRule.headWithoutCall before (c :: rest) = none := by
    rw [LexRule.headWithoutCall]
    simp only [drop_blankLength]
    split
    · rename_i first others shape
      rw [if_neg]
      simpa using noWord first (by simp [shape])
    · rfl
  have nothing : ∀ rule ∈ LexMode.functionHead.rules, rule before (c :: rest) = none := by
    simp only [LexMode.rules, forall_mem_cons]
    exact ⟨headWithCall_eq_none noHead, noName, by simp⟩
  rw [lexFrom_of_eq_none nothing, if_neg inLine]

end

end MatlabDocs
