import MatlabDocs.Proofs.Class.Reader

/-!
# Default values as they are laid out

A default value goes up to the end of its line or to a comment.  Within brackets it goes on
below, on lines that are indented or that start with a bracket; the indentation is no part of it.
-/

namespace MatlabDocs

open List

namespace ClassState

variable {position : Nat} {definition : ClassDef} {notices : List Notice}
variable {rest : List Token} {stop : Token}

/-- The number of brackets that the tokens open and do not close. -/
def bracketDepth (tokens : List Token) : Int :=
  tokens.countP isOpening - tokens.countP isClosing

private theorem isClosing_of_isOpening {token : Token} (opening : isOpening token) :
    isClosing token = false := by
  simp only [isOpening, Token.isPunctuation, Bool.or_eq_true, beq_iff_eq] at opening
  rcases opening with (rfl | rfl) | rfl <;> decide

private theorem bracketDepth_cons (token : Token) (tokens : List Token) :
    bracketDepth (token :: tokens) =
      (if isOpening token then 1 else if isClosing token then -1 else 0) + bracketDepth tokens := by
  simp only [bracketDepth, countP_cons]
  by_cases opening : isOpening token
  · simp only [opening, isClosing_of_isOpening opening, if_true, Bool.false_eq_true, if_false]
    omega
  · by_cases closing : isClosing token
    · simp only [opening, closing, if_true, Bool.false_eq_true, if_false]
      omega
    · simp only [opening, closing, Bool.false_eq_true, if_false]
      omega

theorem readDefault_append {run : List Token}
    (oneLine : ∀ token ∈ run, token.isNewline = false ∧ token.isComment = false) (depth : Int)
    (value : Text) :
    readDefault depth false value ⟨position, run ++ rest, definition, notices⟩ =
      readDefault (depth + bracketDepth run) false (value ++ Token.concat run)
        ⟨position + run.length, rest, definition, notices⟩ := by
  induction run generalizing position depth value with
  | nil => simp [bracketDepth, Token.concat]
  | cons token run ih =>
    obtain ⟨⟨notNewline, notComment⟩, others⟩ := forall_mem_cons.mp oneLine
    have noEllipsis : isEllipsis token = false := by simp [isEllipsis, notComment]
    have shorter : (run ++ rest).length < (token :: (run ++ rest)).length := by
      simp
    have text : value ++ token.value ++ Token.concat run =
        value ++ Token.concat (token :: run) := by
      simp [Token.concat]
    have place : position + 1 + run.length = position + (token :: run).length := by
      rw [length_cons]
      omega
    rw [cons_append, readDefault, peek_cons, Reads.ok_bind, bracketDepth_cons]
    simp only [notNewline, notComment, noEllipsis, Bool.not_false, Bool.and_self, Bool.true_or,
      Bool.not_true, Bool.false_eq_true, if_false, advance_one]
    by_cases opening : isOpening token
    · rw [if_pos opening, if_pos opening, progressing_of_lt shorter, ih others, text,
        place, Int.add_assoc]
    · rw [if_neg opening, if_neg opening]
      by_cases closing : isClosing token
      · rw [if_pos closing, if_pos closing, progressing_of_lt shorter, ih others, text,
          place, ← Int.add_assoc]
        rfl
      · rw [if_neg closing, if_neg closing, progressing_of_lt shorter, ih others, text,
          place, Int.zero_add]

variable {depth : Int}

theorem readDefault_stop (stops : stop.isNewline ∨ stop.isComment)
    (notEllipsis : isEllipsis stop = false) (closed : depth ≤ 0) (value : Text) :
    readDefault depth false value ⟨position, stop :: rest, definition, notices⟩ =
      .ok (value, ⟨position, stop :: rest, definition, notices⟩) := by
  have outside : ¬ depth > 0 := by omega
  have ends : (!stop.isNewline && !stop.isComment) = false := by
    rcases stops with newline | comment <;> simp [*]
  rw [readDefault, peek_cons, Reads.ok_bind]
  simp only [ends, outside, notEllipsis, decide_false, Bool.or_false, Bool.not_false, if_true]
  rfl

theorem readDefault_lineEnd (lineEnd : LineEndToken) (inside : 0 < depth) (value : Text) :
    readDefault depth false value ⟨position, lineEnd.val :: rest, definition, notices⟩ =
      readDefault depth true (value ++ ['\n']) ⟨position + 1, rest, definition, notices⟩ := by
  have plain : isOpening lineEnd.val = false ∧ isClosing lineEnd.val = false ∧
      isEllipsis lineEnd.val = false ∧ lineEnd.val.value = ['\n'] := by
    rcases Token.isNewline_iff.mp lineEnd.property with same | same <;> rw [same] <;> decide
  obtain ⟨notOpening, notClosing, notEllipsis, isFeed⟩ := plain
  have shorter : rest.length < (lineEnd.val :: rest).length := by
    simp
  rw [readDefault, peek_cons, Reads.ok_bind]
  simp only [inside, decide_true, Bool.or_true, Bool.true_or, Bool.not_true, Bool.false_eq_true,
    if_false, advance_one, notOpening, notClosing, notEllipsis, isFeed, lineEnd.property]
  rw [progressing_of_lt shorter]

theorem readDefault_indent {indent : List IndentToken} (notEmpty : indent ≠ [])
    (stops : stop.isIndent = false) (value : Text) :
    readDefault depth true value ⟨position, indent.unattach ++ stop :: rest, definition, notices⟩ =
      readDefault depth false value
        ⟨position + indent.length, stop :: rest, definition, notices⟩ := by
  obtain ⟨blank, others, rfl⟩ := exists_cons_of_ne_nil notEmpty
  have skipped := @skipIndent_append_cons position definition notices rest stop (blank :: others)
    stops
  have plain : isOpening blank.val = false ∧ isClosing blank.val = false ∧
      isEllipsis blank.val = false ∧ blank.val.isNewline = false ∧ blank.val.isComment = false := by
    rcases Token.isIndent_iff.mp blank.property with same | same <;> rw [same] <;> decide
  obtain ⟨notOpening, notClosing, notEllipsis, notNewline, notComment⟩ := plain
  have shorter : (stop :: rest).length < ((blank :: others).unattach ++ stop :: rest).length := by
    simp only [length_append, length_unattach, length_cons]
    omega
  have first : peek ⟨position, (blank :: others).unattach ++ stop :: rest, definition, notices⟩ =
      .ok blank.val := rfl
  rw [readDefault, first, Reads.ok_bind]
  simp only [notNewline, notComment, Bool.not_false, Bool.and_self, Bool.true_or, Bool.not_true,
    Bool.false_eq_true, if_false, notOpening, notClosing, notEllipsis, if_true, skipped,
    Reads.ok_bind]
  rw [progressing_of_lt shorter]

theorem readDefault_bracket (bracket : isOpening stop || isClosing stop) (depth : Int)
    (value : Text) :
    readDefault depth true value ⟨position, stop :: rest, definition, notices⟩ =
      readDefault depth false value ⟨position, stop :: rest, definition, notices⟩ := by
  rw [readDefault, readDefault, peek_cons, Reads.ok_bind, Reads.ok_bind]
  dsimp only
  split
  · rfl
  · by_cases opening : isOpening stop
    · rw [if_pos opening, if_pos opening]
    · have closing : isClosing stop := by simpa [opening] using bracket
      rw [if_neg opening, if_neg opening, if_pos closing, if_pos closing]

end ClassState

/-- A later line of a default value.  It stands within brackets, and is indented or starts with a
bracket. -/
structure ValueLine where
  /-- The end of the line above. -/
  lineEnd : LineEndToken
  indent : List IndentToken
  tokens : List Token
  oneLine : ∀ token ∈ tokens, token.isNewline = false ∧ token.isComment = false
  starts : ∃ first ∈ tokens.head?, first.isIndent = false ∧
    (indent = [] → ClassState.isOpening first || ClassState.isClosing first)

namespace ValueLine

def lineTokens (line : ValueLine) : List Token :=
  line.lineEnd.val :: (line.indent.unattach ++ line.tokens)

def text (line : ValueLine) : Text :=
  '\n' :: Token.concat line.tokens

/-- Brackets are open above each of the lines, and closed at the end. -/
def Nested (depth : Int) : List ValueLine → Prop
  | [] => depth ≤ 0
  | line :: lines => 0 < depth ∧ Nested (depth + ClassState.bracketDepth line.tokens) lines

end ValueLine

/-- A default value with the blanks around its equals sign. -/
structure DefaultLayout where
  beforeEquals : List IndentToken
  beforeValue : List IndentToken
  /-- The first line of the value. -/
  tokens : List Token
  oneLine : ∀ token ∈ tokens, token.isNewline = false ∧ token.isComment = false
  unindented : ∀ first ∈ tokens.head?, first.isIndent = false
  hasText : Token.concat tokens ≠ []
  lines : List ValueLine
  nested : ValueLine.Nested (ClassState.bracketDepth tokens) lines

namespace DefaultLayout

variable (value : DefaultLayout)

def valueTokens : List Token :=
  value.beforeValue.unattach ++ (value.tokens ++ value.lines.flatMap ValueLine.lineTokens)

def lineTokens : List Token :=
  value.beforeEquals.unattach ++ ⟨.punctuation, "="⟩ :: value.valueTokens

def content : Text :=
  Token.concat value.tokens ++ value.lines.flatMap ValueLine.text

/-- What the value says, without the semicolons and blanks at its end. -/
def text : Text :=
  value.content.trimRight fun c => c == ';' || c == ' '

end DefaultLayout

namespace ClassState

variable {position : Nat} {definition : ClassDef} {notices : List Notice}
variable {rest : List Token} {stop : Token}

theorem readDefault_valueLine (line : ValueLine) {depth : Int} (inside : 0 < depth) (value : Text) :
    readDefault depth false value ⟨position, line.lineTokens ++ rest, definition, notices⟩ =
      readDefault (depth + bracketDepth line.tokens) false (value ++ line.text)
        ⟨position + line.lineTokens.length, rest, definition, notices⟩ := by
  obtain ⟨first, isFirst, stops, bracket⟩ := line.starts
  obtain ⟨more, tokens⟩ : ∃ more, line.tokens = first :: more := by
    cases shape : line.tokens with
    | nil => simp [shape] at isFirst
    | cons other more =>
      obtain rfl : other = first := by simpa [shape] using isFirst
      exact ⟨more, rfl⟩
  have start : readDefault depth true (value ++ ['\n']) ⟨position + 1,
      line.indent.unattach ++ (line.tokens ++ rest), definition, notices⟩ =
        readDefault depth false (value ++ ['\n']) ⟨position + 1 + line.indent.length,
          line.tokens ++ rest, definition, notices⟩ := by
    rw [tokens, cons_append]
    by_cases unindented : line.indent = []
    · rw [unindented]
      exact readDefault_bracket (bracket unindented) depth _
    · exact readDefault_indent unindented stops _
  have place : position + 1 + line.indent.length + line.tokens.length =
      position + line.lineTokens.length := by
    simp only [ValueLine.lineTokens, length_cons, length_append, length_unattach]
    omega
  have text : value ++ ['\n'] ++ Token.concat line.tokens = value ++ line.text := by
    simp [ValueLine.text]
  rw [ValueLine.lineTokens, cons_append, append_assoc,
    readDefault_lineEnd line.lineEnd inside, start, readDefault_append line.oneLine, place, text]
  rfl

theorem readDefault_lines {lines : List ValueLine} {depth : Int}
    (nested : ValueLine.Nested depth lines) (value : Text) :
    ∃ closed : Int, closed ≤ 0 ∧ ∀ position rest definition notices,
      readDefault depth false value
          ⟨position, lines.flatMap ValueLine.lineTokens ++ rest, definition, notices⟩ =
        readDefault closed false (value ++ lines.flatMap ValueLine.text)
          ⟨position + (lines.flatMap ValueLine.lineTokens).length, rest, definition, notices⟩ := by
  induction lines generalizing depth value with
  | nil =>
    refine ⟨depth, nested, ?_⟩
    intro position rest definition notices
    simp
  | cons line lines ih =>
    obtain ⟨inside, later⟩ := nested
    obtain ⟨closed, isClosed, reads⟩ := ih later (value ++ line.text)
    refine ⟨closed, isClosed, ?_⟩
    intro position rest definition notices
    rw [flatMap_cons, append_assoc, readDefault_valueLine line inside, reads,
      flatMap_cons, append_assoc, length_append, Nat.add_assoc]

theorem concat_blanks {blanks : List IndentToken}
    (spaces : ∀ blank ∈ blanks, blank.val.value = " ") :
    Token.concat blanks.unattach = List.replicate blanks.length ' ' := by
  induction blanks with
  | nil => rfl
  | cons blank blanks ih =>
    have first := spaces blank (by simp)
    have later := ih fun blank member => spaces blank (.tail _ member)
    simp only [Token.concat] at later ⊢
    simp [first, later, replicate_succ]

theorem trimRight_append_replicate (text : Text) (count : Nat) :
    (text ++ List.replicate count ' ').trimRight (fun c => c == ';' || c == ' ') =
      text.trimRight fun c => c == ';' || c == ' ' := by
  have blank : ∀ c ∈ List.replicate count ' ', (c == ';' || c == ' ') = true := by
    intro c member
    simp [eq_of_mem_replicate member]
  simp [Text.trimRight, dropWhile_append_of_pos blank]

private theorem indent_traits (indent : List IndentToken) :
    (∀ token ∈ indent.unattach, token.isNewline = false ∧ token.isComment = false) ∧
      bracketDepth indent.unattach = 0 := by
  have traits : ∀ token ∈ indent.unattach, (token.isNewline = false ∧ token.isComment = false) ∧
      isOpening token = false ∧ isClosing token = false := by
    intro token member
    rcases Token.isIndent_iff.mp (isIndent_of_mem_unattach indent token member) with rfl | rfl <;>
      decide
  have noOpening : indent.unattach.countP isOpening = 0 :=
    countP_eq_zero.mpr fun token member => by simp [(traits token member).2.1]
  have noClosing : indent.unattach.countP isClosing = 0 :=
    countP_eq_zero.mpr fun token member => by simp [(traits token member).2.2]
  refine ⟨fun token member => (traits token member).1, ?_⟩
  rw [bracketDepth, noOpening, noClosing]
  rfl

theorem readDefaultValue_layout (value : DefaultLayout) {blanks : List IndentToken}
    (spaces : ∀ blank ∈ blanks, blank.val.value = " ") (stops : stop.isNewline ∨ stop.isComment)
    (notEllipsis : isEllipsis stop = false) :
    readDefaultValue ⟨position, ⟨.punctuation, "="⟩ :: (value.valueTokens ++
        (blanks.unattach ++ stop :: rest)), definition, notices⟩ =
      .ok (some (some value.text),
        let length := 1 + value.valueTokens.length + blanks.length
        if stop.isComment then ⟨position + length, stop :: rest, definition, notices⟩
        else ⟨position + (length + 1), rest, definition, notices⟩) := by
  have isEquals : Token.isPunctuation ⟨.punctuation, "="⟩ "=" = true := by decide
  obtain ⟨first, others, tokens⟩ : ∃ first others, value.tokens = first :: others :=
    exists_cons_of_ne_nil fun empty => value.hasText (by rw [empty]; rfl)
  have notIndent : first.isIndent = false := value.unindented first (by simp [tokens])
  let behind := value.lines.flatMap ValueLine.lineTokens ++ (blanks.unattach ++ stop :: rest)
  have skipped := @skipIndent_append_cons (position + 1) definition notices (others ++ behind) first
    value.beforeValue notIndent
  rw [← cons_append, ← tokens] at skipped
  obtain ⟨blanksOneLine, blanksDepth⟩ := indent_traits blanks
  obtain ⟨closed, isClosed, lines⟩ := readDefault_lines value.nested (Token.concat value.tokens)
  have run : readDefault 0 false [] ⟨position + 1 + value.beforeValue.length,
      value.tokens ++ behind, definition, notices⟩ =
        .ok (value.content ++ List.replicate blanks.length ' ',
          ⟨position + (1 + value.valueTokens.length + blanks.length), stop :: rest, definition,
            notices⟩) := by
    rw [readDefault_append value.oneLine, Int.zero_add, nil_append, lines,
      readDefault_append blanksOneLine, blanksDepth, Int.add_zero,
      readDefault_stop stops notEllipsis isClosed, concat_blanks spaces]
    simp only [DefaultLayout.content, DefaultLayout.valueTokens, length_append,
      length_unattach, Except.ok.injEq, Prod.mk.injEq, ClassState.mk.injEq, true_and, and_true]
    omega
  have notEmpty : value.content ++ List.replicate blanks.length ' ' ≠ [] := by
    apply append_ne_nil_of_left_ne_nil
    exact append_ne_nil_of_left_ne_nil value.hasText _
  have regrouped : value.valueTokens ++ (blanks.unattach ++ stop :: rest) =
      value.beforeValue.unattach ++ (value.tokens ++ behind) := by
    simp [DefaultLayout.valueTokens, behind]
  rw [regrouped, readDefaultValue]
  simp only [peek_cons, Reads.ok_bind, isEquals, if_true, advance_one, skipped, run, notEmpty,
    if_false]
  rw [trimRight_append_replicate]
  cases comment : stop.isComment with
  | true => rfl
  | false => rfl

end ClassState

end MatlabDocs
