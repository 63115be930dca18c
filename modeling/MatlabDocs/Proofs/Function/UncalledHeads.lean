import MatlabDocs.Proofs.Function.Outline
import MatlabDocs.Proofs.Function.SpacedLists

/-!
# Reading heads without a call

A line with outputs and without parentheses is not read as a signature.  Whatever its gaps, no
outputs and no arguments are found, and the rest of the line stands in the way of the comment block
below it.
-/

namespace MatlabDocs

open List Token

section

variable {before : Option Char} {c : Char} {rest : Text}

theorem ne_whitespace_of_lexFrom {token : Token} {others : List Token} (inLine : c ≠ '\n')
    (isFirst : lexFrom .code before (c :: rest) = token :: others) : token.kind ≠ .whitespace :=
  ne_of_lexFrom (LexMode.avoids_of_table (by simp [LexMode.table]))
    (fun isLineFeed => absurd isLineFeed inLine) (by simp) isFirst

theorem lexFrom_sign (isSign : c = ',' ∨ c = '[' ∨ c = ']' ∨ c = '=')
    (single : c = '=' → rest.head? ≠ some '=') :
    lexFrom .code before (c :: rest) = ⟨.punctuation, [c]⟩ :: lexFrom .code (some c) rest := by
  have noComparison : LexRule.comparison before (c :: rest) = none := by
    rcases isSign with rfl | rfl | rfl | rfl
    · rfl
    · rfl
    · rfl
    · cases rest with
      | nil => rfl
      | cons next rest =>
        have different : next ≠ '=' := by simpa using single rfl
        simp [LexRule.comparison, different]
  have applies : (LexMode.code.rules.findSome? fun rule => rule before (c :: rest)) =
      some (.single .punctuation 0 .code) := by
    simp only [LexMode.rules, findSome?_cons, noComparison]
    rcases isSign with rfl | rfl | rfl | rfl
    · rfl
    · rfl
    · rfl
    · rfl
  have fills : Fills (LexStep.single .punctuation 0 .code).pieces [c] [⟨.punctuation, [c]⟩] :=
    @Fills.piece .punctuation [c] _ _ _ (cons_ne_nil c []) .nil
  exact lexFrom_of_fills applies fills

end

/-- No comment block is found at the start of a body. -/
def Quiet (tokens : List Token) : Prop :=
  ∀ token ∈ (FunctionDef.skipBlankTokens tokens).head?, token.isComment = false

theorem Quiet.bodyDocstring_eq {tokens : List Token} (quiet : Quiet tokens) :
    bodyDocstring tokens = [] := by
  rw [bodyDocstring]
  split
  · rfl
  · rename_i first rest shape
    have uncommented : first.isComment = false := quiet first (by simp [shape])
    rw [readCommentBlock.eq_def, if_neg (by simp [uncommented])]

theorem quiet_cons {token : Token} {others : List Token} (uncommented : token.isComment = false)
    (kept : (token.kind == .whitespace || token.isIndent) = false) : Quiet (token :: others) := by
  rw [Quiet, skipBlankTokens_cons_of_kept kept]
  simpa using uncommented

theorem isIndent_token {c : Char} (indent : isIndent c) : Token.isIndent ⟨.text, [c]⟩ := by
  simpa [Token.isIndent, isIndent] using indent

/-- What is left of a line stands in the way of a comment block. -/
theorem quiet_lexFrom_code {line : Text} (visible : ∃ c ∈ line, isBlank c = false)
    (oneLine : '\n' ∉ line) (plain : ∀ c ∈ line, c ≠ '%' ∧ c ≠ '.') {last : Char}
    (inLine : last ≠ '\n') (rest : Text) :
    Quiet (lexFrom .code (some last) (line ++ rest)) := by
  induction line generalizing last with
  | nil =>
    obtain ⟨c, member, _⟩ := visible
    cases member
  | cons first line ih =>
    obtain ⟨notLineFeed, lineInLine⟩ := ne_and_not_mem_of_not_mem_cons oneLine
    obtain ⟨⟨notComment, notDot⟩, plainLine⟩ := forall_mem_cons.mp plain
    rw [cons_append]
    by_cases indent : isIndent first
    · have visibleLine : ∃ c ∈ line, isBlank c = false := by
        obtain ⟨c, member, isVisible⟩ := visible
        refine ⟨c, (mem_cons.mp member).resolve_left fun same => ?_, isVisible⟩
        rw [same, isBlank_of_isIndent indent] at isVisible
        cases isVisible
      rw [lexFrom_indent_of_eq_none indent (functionKeyword_eq_none inLine _), Quiet,
        skipBlankTokens_cons (by simp [isIndent_token indent])]
      exact ih visibleLine lineInLine plainLine notLineFeed.symm
    · obtain ⟨token, others, isFirst, uncommented, starts⟩ :=
        @exists_lexFrom_uncommented (some last) first (line ++ rest) notComment
          fun ⟨_, same⟩ => notDot (cons.inj same).1.symm
      have notWhitespace := ne_whitespace_of_lexFrom notLineFeed.symm isFirst
      have notIndent : token.isIndent = false := by
        rw [Bool.eq_false_iff]
        intro isIndent_token
        rcases isIndent_iff.mp isIndent_token with rfl | rfl
        · obtain rfl : ' ' = first := by simpa using starts
          exact indent (by decide)
        · obtain rfl : '\t' = first := by simpa using starts
          exact indent (by decide)
      rw [isFirst]
      exact quiet_cons uncommented (by simp [notWhitespace, notIndent])

theorem quiet_pieceTokens_append {blanks word : Text} {others : List Token} :
    Quiet (pieceTokens .text blanks ++ ⟨.functionName, word⟩ :: others) := by
  have atName : Quiet (⟨.functionName, word⟩ :: others) := quiet_cons rfl (by simp [Token.isIndent])
  rw [pieceTokens]
  split
  · exact atName
  · rw [singleton_append]
    by_cases indent : Token.isIndent ⟨.text, blanks⟩
    · rw [Quiet, skipBlankTokens_cons (by simp [indent])]
      exact atName
    · exact quiet_cons rfl (by simp [indent])

/-- The characters that part words and are no blanks. -/
def isPartingSign (c : Char) : Bool :=
  !isWord c && !isBlank c

namespace Uncalled

variable {line : Text} (uncalled : Uncalled line)

include uncalled

theorem plain : ∀ c ∈ line, c ≠ '%' ∧ c ≠ '.' :=
  fun c member => ⟨ne_of_test (uncalled.characters c member) (by decide),
    ne_of_test (uncalled.characters c member) (by decide)⟩

theorem quiet_lexFrom_code (visible : ∃ c ∈ line, isBlank c = false) {last : Char}
    (inLine : last ≠ '\n') (rest : Text) :
    Quiet (lexFrom .code (some last) (line ++ rest)) :=
  MatlabDocs.quiet_lexFrom_code visible (uncalled.not_mem (by decide)) uncalled.plain inLine rest

variable {rest : Text} (below : ∀ c ∈ (rest.dropWhile isBlank).head?, c ≠ '=')

include below

/-- Where the first sign of a line without a call is no letter, each step finds an error. -/
theorem lexFrom_cons_error {c : Char} {behind : Text} (isLine : line = c :: behind)
    (visible : ∃ c ∈ line, isBlank c = false)
    (opens : ∀ d ∈ (line.dropWhile isBlank).head?, (d.isAlpha || d == '_') = false)
    (before : Option Char) :
    lexFrom .functionHead before (line ++ '\n' :: rest) =
      ⟨.error, [c]⟩ :: lexFrom .functionHead (some c) (behind ++ '\n' :: rest) := by
  have noHead := uncalled.headLengths?_eq_none below visible
  obtain ⟨first, back, _, starts⟩ := exists_dropWhile_append visible
  have noWord : ∀ d ∈ ((line ++ '\n' :: rest).dropWhile isBlank).head?,
      (d.isAlpha || d == '_') = false := by
    rw [← append_nil line, starts] at opens
    rw [starts]
    exact opens
  have inLine : c ≠ '\n' :=
    ne_of_test (uncalled.characters c (by simp [isLine])) (by decide)
  rw [isLine, cons_append] at noHead noWord ⊢
  exact lexFrom_error noHead inLine noWord

/-- The first step into a line without a call finds an error or a word. -/
theorem lexFrom_cases (visible : ∃ c ∈ line, isBlank c = false) (before : Option Char) :
    (∃ c behind, line = c :: behind ∧ (c.isAlpha || c == '_') = false ∧
      lexFrom .functionHead before (line ++ '\n' :: rest) =
        ⟨.error, [c]⟩ :: lexFrom .functionHead (some c) (behind ++ '\n' :: rest)) ∨
    ∃ blanks word behind last, line = blanks ++ (word ++ behind) ∧ (∀ c ∈ blanks, isBlank c) ∧
      (∀ c ∈ word, isWord c) ∧ EndsWord behind ∧ isWord last ∧
      lexFrom .functionHead before (line ++ '\n' :: rest) =
        pieceTokens .text blanks ++ ⟨.functionName, word⟩ ::
          lexFrom .code (some last) (behind ++ '\n' :: rest) := by
  have noHead := uncalled.headLengths?_eq_none below visible
  obtain ⟨first, back, split, starts⟩ := exists_dropWhile_append visible
  by_cases initial : first.isAlpha || first == '_'
  · right
    have ascii : isAsciiWord first := isAsciiWord_of_initial initial
    have isWord_word : ∀ c ∈ first :: back.takeWhile isWord, isWord c :=
      forall_mem_cons.mpr ⟨isWord_of_isAsciiWord ascii, fun _ => mem_takeWhile_imp⟩
    have stops := head?_dropWhile_eq_false isWord back
    obtain ⟨last, isLast⟩ := Option.ne_none_iff_exists'.mp
      (mt getLast?_eq_none_iff.mp (cons_ne_nil first (back.takeWhile isWord)))
    have regrouped : line = line.takeWhile isBlank ++
        (first :: back.takeWhile isWord ++ back.dropWhile isWord) := by
      rw [cons_append, takeWhile_append_dropWhile]
      exact split
    have whole : line ++ '\n' :: rest = line.takeWhile isBlank ++
        (first :: back.takeWhile isWord ++ (back.dropWhile isWord ++ '\n' :: rest)) := by
      rw [← append_assoc (first :: back.takeWhile isWord), ← append_assoc, ← regrouped]
    have atBehind : EndsWord (back.dropWhile isWord ++ '\n' :: rest) :=
      head?_append_of_head? stops (by simpa using (by decide : isWord '\n' = false))
    refine ⟨_, _, _, last, regrouped, fun _ => mem_takeWhile_imp, isWord_word, stops,
      isWord_word last (mem_of_getLast? isLast), ?_⟩
    rw [whole] at noHead ⊢
    rw [lexFrom_word (fun _ => mem_takeWhile_imp) initial
      (fun _ => mem_takeWhile_imp) atBehind noHead, isLast]
  · left
    have opens : ∀ d ∈ (line.dropWhile isBlank).head?, (d.isAlpha || d == '_') = false := by
      rw [← append_nil line, starts]
      simpa using initial
    have ⟨_, member, _⟩ := visible
    obtain ⟨c, behind, isLine⟩ := exists_cons_of_ne_nil (ne_nil_of_mem member)
    refine ⟨c, behind, isLine, ?_, uncalled.lexFrom_cons_error below isLine visible opens before⟩
    rw [Bool.eq_false_iff]
    intro initial_c
    have notBlank := not_isBlank_of_isAsciiWord (isAsciiWord_of_initial initial_c)
    rw [isLine, dropWhile_cons_of_neg (by simp [notBlank])] at opens
    exact Bool.false_ne_true ((opens c rfl).symm.trans initial_c)

theorem quiet_lexFrom_functionHead (visible : ∃ c ∈ line, isBlank c = false)
    (before : Option Char) : Quiet (lexFrom .functionHead before (line ++ '\n' :: rest)) := by
  rcases uncalled.lexFrom_cases below visible before with
    ⟨c, behind, _, _, isError⟩ | ⟨blanks, word, behind, last, _, _, _, _, _, isFound⟩
  · rw [isError]
    exact quiet_cons rfl (by simp [Token.isIndent])
  · rw [isFound]
    exact quiet_pieceTokens_append

end Uncalled

/-- A line that goes on with words and signs up to a visible end. -/
structure Ended (line : Text) (signs : Nat) : Prop where
  uncalled : Uncalled line
  ends : ∃ front ending, line = front ++ ending ∧ (∃ c ∈ ending, isBlank c = false) ∧
    signs ≤ front.countP isPartingSign

namespace Ended

variable {line : Text} {signs : Nat}

theorem visible (ended : Ended line signs) : ∃ c ∈ line, isBlank c = false := by
  obtain ⟨front, ending, rfl, ⟨c, member, isVisible⟩, _⟩ := ended.ends
  exact ⟨c, mem_append_right front member, isVisible⟩

theorem tail {c : Char} (ended : Ended (c :: line) (signs + 1)) : Ended line signs := by
  obtain ⟨front, ending, split, visible, enough⟩ := ended.ends
  refine ⟨@Uncalled.of_append line [c] ended.uncalled, ?_⟩
  cases front with
  | nil => simp at enough
  | cons first front =>
    obtain ⟨rfl, rfl⟩ := List.cons.inj split
    refine ⟨front, ending, rfl, visible, ?_⟩
    rw [countP_cons] at enough
    split at enough <;> omega

theorem behind {run : Text} (unsigned : ∀ c ∈ run, isPartingSign c = false)
    (ended : Ended (run ++ line) (signs + 1)) : Ended line (signs + 1) := by
  obtain ⟨front, ending, split, visible, enough⟩ := ended.ends
  have noSigns : run.countP isPartingSign = 0 := by
    rw [countP_eq_zero]
    intro c member
    simp [unsigned c member]
  refine ⟨ended.uncalled.of_append, ?_⟩
  rcases append_eq_append_iff.mp split with ⟨more, isFront, isLine⟩ | ⟨more, isRun, isEnding⟩
  · rw [isFront, countP_append, noSigns, Nat.zero_add] at enough
    exact ⟨more, ending, isLine, visible, enough⟩
  · rw [isRun, countP_append] at noSigns
    omega

theorem mono {fewer : Nat} (ended : Ended line signs) (fewer_le : fewer ≤ signs) :
    Ended line fewer := by
  obtain ⟨front, ending, split, visible, enough⟩ := ended.ends
  exact ⟨ended.uncalled, front, ending, split, visible, Nat.le_trans fewer_le enough⟩

theorem behind_word {blanks word : Text} (blank : ∀ c ∈ blanks, isBlank c)
    (isWord_word : ∀ c ∈ word, isWord c)
    (ended : Ended (blanks ++ (word ++ line)) (signs + 1)) : Ended line (signs + 1) := by
  rw [← append_assoc] at ended
  refine ended.behind (forall_mem_append.mpr ⟨fun c member => ?_, fun c member => ?_⟩)
  · simp [isPartingSign, blank c member]
  · simp [isPartingSign, isWord_word c member]

variable {rest : Text}

theorem exists_lexFrom_code (ended : Ended line 1) (starts : EndsWord line)
    {last : Char} (inLine : last ≠ '\n') :
    ∃ token others, lexFrom .code (some last) (line ++ '\n' :: rest) = token :: others ∧
      token.isPunctuation "(" = false ∧ Quiet others := by
  obtain ⟨d, member, _⟩ := ended.visible
  obtain ⟨c, behind, rfl⟩ := exists_cons_of_ne_nil (ne_nil_of_mem member)
  have character := ended.uncalled.characters c mem_cons_self
  have notLineFeed : c ≠ '\n' := ne_of_test character (by decide)
  have notWord : isAsciiWord c = false := by
    rw [Bool.eq_false_iff]
    intro ascii
    have noWord := starts c rfl
    rw [isWord_of_isAsciiWord ascii] at noWord
    cases noWord
  rw [cons_append]
  by_cases indent : isIndent c
  · have unsigned : ∀ d ∈ [c], isPartingSign d = false := by
      simp [isPartingSign, isBlank_of_isIndent indent]
    have later := @Ended.behind behind 0 [c] unsigned ended
    refine ⟨_, _, lexFrom_indent_of_eq_none indent (functionKeyword_eq_none inLine _),
      by simp [isPunctuation], ?_⟩
    exact later.uncalled.quiet_lexFrom_code later.visible notLineFeed _
  · have isSign : c = ',' ∨ c = '[' ∨ c = ']' ∨ c = '=' := by
      simpa [isUncalledCharacter, notWord, indent, or_assoc] using character
    have single : c = '=' → (behind ++ '\n' :: rest).head? ≠ some '=' := by
      rintro rfl
      obtain ⟨noEquals, _⟩ := ended.uncalled.afterEquals [] behind rfl
      cases behind with
      | nil => simp
      | cons next behind => simpa using fun same : next = '=' => noEquals (by simp [same])
    have later := ended.tail
    refine ⟨_, _, lexFrom_sign isSign single, ?_,
      later.uncalled.quiet_lexFrom_code later.visible notLineFeed _⟩
    have notOpening : c ≠ '(' := ne_of_test character (by decide)
    simpa [isPunctuation] using notOpening

variable (below : ∀ c ∈ (rest.dropWhile isBlank).head?, c ≠ '=')

include below

private theorem exists_lexFrom_functionHead (ended : Ended line 1) (before : Option Char) :
    ∃ token others, lexFrom .functionHead before (line ++ '\n' :: rest) = token :: others ∧
      token.isPunctuation "(" = false ∧ Quiet others := by
  rcases ended.uncalled.lexFrom_cases below ended.visible before with
    ⟨c, behind, rfl, _, isError⟩ |
      ⟨blanks, word, behind, last, rfl, blank, isWord_word, _, isLast, isFound⟩
  · have later := ended.tail
    exact ⟨_, _, isError, by simp [isPunctuation],
      later.uncalled.quiet_lexFrom_functionHead below later.visible _⟩
  · have later := ended.behind_word blank isWord_word
    rw [isFound, pieceTokens]
    split
    · exact ⟨_, _, rfl, by simp [isPunctuation],
        later.uncalled.quiet_lexFrom_code later.visible (ne_of_test isLast (by decide)) _⟩
    · exact ⟨_, _, rfl, by simp [Token.isPunctuation], quiet_cons rfl (by simp [Token.isIndent])⟩

theorem exists_lexFrom_functionHead_two (ended : Ended line 2) (before : Option Char) :
    ∃ first second others,
      lexFrom .functionHead before (line ++ '\n' :: rest) = first :: second :: others ∧
        second.isPunctuation "(" = false ∧ Quiet others := by
  rcases ended.uncalled.lexFrom_cases below ended.visible before with
    ⟨c, behind, rfl, _, isError⟩ |
      ⟨blanks, word, behind, last, rfl, blank, isWord_word, stops, isLast, isFound⟩
  · obtain ⟨token, others, isFirst, notOpening, quiet⟩ :=
      ended.tail.exists_lexFrom_functionHead below (some c)
    exact ⟨_, token, others, by rw [isError, isFirst], notOpening, quiet⟩
  · have later := ended.behind_word blank isWord_word
    have inLine : last ≠ '\n' := ne_of_test isLast (by decide)
    rw [isFound, pieceTokens]
    split
    · obtain ⟨token, others, isFirst, notOpening, quiet⟩ :=
        (later.mono (Nat.le_succ 1)).exists_lexFrom_code stops inLine
      exact ⟨_, token, others, by rw [isFirst]; rfl, notOpening, quiet⟩
    · exact ⟨_, _, _, rfl, by simp [isPunctuation],
        later.uncalled.quiet_lexFrom_code later.visible inLine _⟩

end Ended

/-- What is found where the line of a function is no signature. -/
def Outline.blank (name : Text) : Outline :=
  ⟨some name, none, none, []⟩

namespace FunctionDef

variable {name module : Text}

variable {others : List Token}

theorem outline_readName {definition : FunctionDef} {token passed : Token}
    (notOpening : passed.isPunctuation "(" = false) (undocumented : definition.docstring = []) :
    (readName (.file name) definition (token :: passed :: others)).definition.outline =
      { definition.outline with docstring := bodyDocstring others } := by
  have isPassed : ∀ notices, readArguments (.file name) definition notices (passed :: others) =
      readBody definition notices others := by
    intro notices
    rw [readArguments.eq_def]
    simp only [notOpening, Bool.false_eq_true, if_false]
  rw [readName.eq_def]
  simp only [isPassed]
  exact outline_readBody definition _ others undocumented

/-- An error and two more tokens are passed over. -/
theorem outline_read_error {keyword second third : Token} {value : Text}
    (notOpening : third.isPunctuation "(" = false) (quiet : Quiet others) :
    (read (.file name) module (keyword :: ⟨.error, value⟩ :: second :: third ::
      others)).definition.outline = .blank name := by
  rw [read, skipBlankTokens_cons_of_kept (by simp [Token.isIndent]), readOutputs]
  simp only [show (TokenKind.error == .text) = false from rfl,
    show (TokenKind.error == .functionName) = false from rfl, Bool.false_eq_true, if_false]
  rw [outline_readName notOpening rfl, quiet.bodyDocstring_eq]
  rfl

theorem outline_read_name {keyword passed : Token} {blank word : Text}
    (indent : Token.isIndent ⟨.text, blank⟩) (notOpening : passed.isPunctuation "(" = false) :
    (read (.file name) module (keyword :: ⟨.text, blank⟩ :: ⟨.functionName, word⟩ :: passed ::
      others)).definition.outline = ⟨some name, none, none, bodyDocstring others⟩ := by
  rw [read, skipBlankTokens_cons (by simp [indent]),
    skipBlankTokens_cons_of_kept (by simp [Token.isIndent]), readOutputs]
  simp only [show (TokenKind.functionName == .text) = false from rfl, BEq.rfl, Bool.false_eq_true,
    if_false, if_true]
  rw [outline_readName notOpening rfl]
  rfl

/-- Other blanks in front of a name are taken for outputs that lack their equals sign. -/
theorem outline_read_blanks {keyword : Token} {gap : Gap} {word : Text}
    (notIndent : Token.isIndent ⟨.text, gap.text⟩ = false) :
    (read (.file name) module (keyword :: ⟨.text, gap.text⟩ :: ⟨.functionName, word⟩ ::
      others)).definition.outline = .blank name := by
  have noOutputs : outputNames gap.text = none := by
    have stripped : gap.text.strip = [] := by
      have nothing := Text.strip_append_of_blank gap.isBlank_of_mem []
      rwa [append_nil] at nothing
    rw [outputNames_eq, Text.map_strip_splitOn_trim (by decide)
      fun c member _ => gap.isBlank_of_mem c member,
      Text.splitOn_of_not_mem (gap.not_mem (by decide)), map_singleton, stripped]
    rfl
  rw [read, skipBlankTokens_cons_of_kept (by simp [notIndent]), readOutputs]
  simp only [BEq.rfl, if_true, noOutputs, isPunctuation]
  rfl

end FunctionDef

theorem lexFrom_identifier {gap : Gap} {word : Identifier} {behind : Text} (ends : EndsWord behind)
    (noHead : headLengths? (gap.text ++ (word.text ++ behind)) = none) (before : Option Char) :
    ∃ last, isWord last ∧ lexFrom .functionHead before (gap.text ++ (word.text ++ behind)) =
      pieceTokens .text gap.text ++ ⟨.functionName, word.text⟩ ::
        lexFrom .code (some last) behind := by
  have wellFormed := word.wellFormed
  have words := word.isWord_of_mem
  obtain ⟨first, others, isWord_text⟩ := exists_cons_of_ne_nil word.text_ne_nil
  rw [isWord_text] at wellFormed words noHead ⊢
  rw [isIdentifier, Bool.and_eq_true] at wellFormed
  have isLast := getLast?_eq_some_getLast (cons_ne_nil first others)
  refine ⟨_, words _ (mem_of_getLast? isLast), ?_⟩
  rw [← isLast]
  exact lexFrom_word gap.isBlank_of_mem wellFormed.1 (forall_mem_cons.mp words).2 ends noHead

private theorem bodyDocstring_lexFrom_gap {indents : Text} (isIndents : ∀ c ∈ indents, isIndent c)
    {last : Char} (inLine : last ≠ '\n') (rest : Text) :
    bodyDocstring (lexFrom .code (some last) (indents ++ '\n' :: rest)) =
      bodyDocstring (lexFrom .code (some '\n') rest) := by
  induction indents generalizing last with
  | nil =>
    rw [nil_append, lexFrom_lineFeed inLine]
    exact bodyDocstring_cons rfl
  | cons c indents ih =>
    obtain ⟨indent, others⟩ := forall_mem_cons.mp isIndents
    rw [cons_append, lexFrom_indent_of_eq_none indent (functionKeyword_eq_none inLine _),
      bodyDocstring_cons (by simp [isIndent_token indent])]
    exact ih others (ne_of_test indent (by decide))

theorem exists_lexFrom_gap (gap : Gap) {last : Char} (inLine : last ≠ '\n') (rest : Text) :
    ∃ token others, lexFrom .code (some last) (gap.text ++ '\n' :: rest) = token :: others ∧
      token.isPunctuation "(" = false ∧
      bodyDocstring others = bodyDocstring (lexFrom .code (some '\n') rest) := by
  have indents := gap.isIndent_of_mem
  cases isGap : gap.text with
  | nil => exact ⟨_, _, lexFrom_lineFeed inLine, rfl, rfl⟩
  | cons c more =>
    rw [isGap] at indents
    obtain ⟨indent, others⟩ := forall_mem_cons.mp indents
    exact ⟨_, _, lexFrom_indent_of_eq_none indent (functionKeyword_eq_none inLine _), rfl,
      bodyDocstring_lexFrom_gap others (ne_of_test indent (by decide)) rest⟩

namespace FunctionDef

variable {name module : Text} {rest : Text} (below : ∀ c ∈ (rest.dropWhile isBlank).head?, c ≠ '=')
  (keyword : Token) (before : Option Char)

include below

/-- Nothing is found in a line that has an output in brackets and no call. -/
theorem outline_read_bracketed {line : Text} (ended : Ended line 3)
    (opens : ∀ c ∈ (line.dropWhile isBlank).head?, (c.isAlpha || c == '_') = false) :
    (read (.file name) module (keyword ::
      lexFrom .functionHead before (line ++ '\n' :: rest))).definition.outline = .blank name := by
  obtain ⟨d, member, _⟩ := ended.visible
  obtain ⟨c, behind, rfl⟩ := exists_cons_of_ne_nil (ne_nil_of_mem member)
  obtain ⟨second, third, others, isFound, notOpening, quiet⟩ :=
    ended.tail.exists_lexFrom_functionHead_two below (some c)
  rw [ended.uncalled.lexFrom_cons_error below rfl ended.visible opens before, isFound]
  exact outline_read_error notOpening quiet

theorem outline_read_single {gap : Gap} {word : Identifier} {behind : Text}
    (notEmpty : gap.text ≠ []) (uncalled : Uncalled (gap.text ++ (word.text ++ behind)))
    (starts : EndsWord behind) (ended : Ended behind 1) :
    (read (.file name) module (keyword :: lexFrom .functionHead before
      (gap.text ++ (word.text ++ behind) ++ '\n' :: rest))).definition.outline = .blank name := by
  have visible : ∃ c ∈ gap.text ++ (word.text ++ behind), isBlank c = false := by
    obtain ⟨c, member, isVisible⟩ := ended.visible
    exact ⟨c, mem_append_right _ (mem_append_right _ member), isVisible⟩
  have noHead := uncalled.headLengths?_eq_none below visible
  have ends : EndsWord (behind ++ '\n' :: rest) :=
    head?_append_of_head? starts (by simpa using (by decide : isWord '\n' = false))
  rw [append_assoc, append_assoc] at noHead ⊢
  obtain ⟨last, isLast, lexed⟩ := lexFrom_identifier ends noHead before
  obtain ⟨token, others, isFirst, notOpening, quiet⟩ :=
    @Ended.exists_lexFrom_code _ rest ended starts _ (ne_of_test isLast (by decide))
  rw [lexed, pieceTokens, if_neg notEmpty, isFirst, singleton_append]
  by_cases indent : Token.isIndent ⟨.text, gap.text⟩
  · rw [outline_read_name indent notOpening, quiet.bodyDocstring_eq]
    rfl
  · exact outline_read_blanks (by simpa using indent)

/-- A name alone behind one blank is documented by the comment block below it. -/
theorem outline_read_bare {gap ending : Gap} {word : Identifier} (single : gap.text.length = 1)
    (uncalled : Uncalled (gap.text ++ (word.text ++ ending.text))) :
    (read (.file name) module (keyword :: lexFrom .functionHead before
      (gap.text ++ (word.text ++ ending.text) ++ '\n' :: rest))).definition.outline =
      ⟨some name, none, none, bodyDocstring (lexFrom .code (some '\n') rest)⟩ := by
  have visible : ∃ c ∈ gap.text ++ (word.text ++ ending.text), isBlank c = false := by
    obtain ⟨c, others, isWord_text⟩ := exists_cons_of_ne_nil word.text_ne_nil
    exact ⟨c, by simp [isWord_text], not_isBlank_of_isAsciiWord
      (word.isAsciiWord_of_mem c (by simp [isWord_text]))⟩
  have noHead := uncalled.headLengths?_eq_none below visible
  have ends : EndsWord (ending.text ++ '\n' :: rest) :=
    head?_append_of_head? (fun c member => ending.not_isWord_of_mem c (mem_of_head? member))
      (by simpa using (by decide : isWord '\n' = false))
  obtain ⟨sign, isSign⟩ := length_eq_one_iff.mp single
  have indent := isIndent_token (gap.isIndent_of_mem sign (by simp [isSign]))
  rw [append_assoc, append_assoc] at noHead ⊢
  obtain ⟨last, isLast, lexed⟩ := lexFrom_identifier ends noHead before
  obtain ⟨token, others, isFirst, notOpening, documented⟩ :=
    exists_lexFrom_gap ending (ne_of_test isLast (by decide)) rest
  rw [lexed, isFirst, isSign, ← documented]
  exact outline_read_name indent notOpening

end FunctionDef

end MatlabDocs
