import MatlabDocs.Proofs.Function.MethodLayout
import MatlabDocs.Proofs.Source.EndedComments
import MatlabDocs.Proofs.Token.SignatureTokens

/-!
# Comments among the tokens

Only two rules of plain code give comments: that of the comment sign and that of the ellipsis.  A
line that starts with a comment sign is one token up to its line feed, unless it opens a block
comment, and a line that starts otherwise does not start with a comment.
-/

namespace MatlabDocs

open List LexMode LexRule

/-- At this place the rule gives no token of this kind. -/
def LexRule.Avoids (rule : LexRule) (kind : TokenKind) (before : Option Char) (text : Text) :
    Prop :=
  ∀ step, rule before text = some step → ∀ piece ∈ step.pieces, piece.1 ≠ kind

theorem LexRule.Gives.avoids {rule : LexRule} {kinds : List TokenKind} {mode : LexMode}
    (gives : rule.Gives kinds mode) {kind : TokenKind} (other : kind ∉ kinds)
    (before : Option Char) (text : Text) : rule.Avoids kind before text := by
  intro step applied piece member same
  exact other (same ▸ (gives before text step applied).listed piece member)

variable {text : Text} {c : Char} {before : Option Char}

/-- Only the rules that give such tokens elsewhere have to be looked at. -/
theorem LexMode.avoids_of_table {mode : LexMode} {kind : TokenKind}
    (listed : ∀ entry ∈ mode.table, kind ∈ entry.2.1 → entry.1.Avoids kind before text) :
    ∀ rule ∈ mode.rules, rule.Avoids kind before text := by
  intro rule member
  obtain ⟨kinds, target, inTable, gives⟩ := exists_mem_table member
  by_cases inKinds : kind ∈ kinds
  · exact listed _ inTable inKinds
  · exact gives.avoids inKinds before text

/-- A comment in plain code starts with the comment sign or with an ellipsis. -/
theorem LexMode.avoids_comment {rest : Text}
    (notComment : c ≠ '%') (notEllipsis : ¬ ("..." : Text) <+: c :: rest) :
    ∀ rule ∈ code.rules, rule.Avoids .comment before (c :: rest) := by
  have sign : lineComment.Avoids .comment before (c :: rest) := by
    intro step applied
    unfold lineComment at applied
    split at applied
    · rename_i same
      exact absurd (List.cons.inj same).1 notComment
    · cases applied
  have dots : ellipsis.Avoids .comment before (c :: rest) := by
    intro step applied
    unfold ellipsis at applied
    split at applied
    · rename_i same
      exact absurd ⟨_, same.symm⟩ notEllipsis
    · cases applied
  exact avoids_of_table (by simpa [table] using ⟨sign, dots⟩)

private theorem Fills.exists_cons {pieces : List (TokenKind × Nat)}
    {tokens : List Token} (fills : Fills pieces (c :: text) tokens) :
    ∃ token others, tokens = token :: others ∧ token.value.head? = some c ∧
      ∃ length, (token.kind, length) ∈ pieces := by
  generalize shape : c :: text = whole at fills
  induction fills with
  | nil => cases shape
  | empty _ ih =>
    obtain ⟨token, others, isFirst, starts, length, member⟩ := ih shape
    exact ⟨token, others, isFirst, starts, length, mem_cons_of_mem _ member⟩
  | @piece kind value _ _ tokens notEmpty _ _ =>
    obtain ⟨first, rest, isValue⟩ := exists_cons_of_ne_nil notEmpty
    have isFirst : c = first := by
      rw [isValue] at shape
      exact (List.cons.inj shape).1
    refine ⟨_, tokens, rfl, ?_, value.length, mem_cons_self⟩
    rw [isFirst, isValue]
    rfl

section

variable {before : Option Char} {c : Char} {rest : Text}

/-- The first token comes from the first rule that applies, and starts where the rule applies. -/
theorem exists_lexFrom_of_findSome? {mode : LexMode} {step : LexStep}
    (applies : (mode.rules.findSome? fun rule => rule before (c :: rest)) = some step) :
    ∃ token others, lexFrom mode before (c :: rest) = token :: others ∧
      token.value.head? = some c ∧ ∃ length, (token.kind, length) ∈ step.pieces := by
  have advances : step.length = step.length - 1 + 1 := (Nat.sub_add_cancel step.advances).symm
  have fills := fills_of_findSome? applies
  rw [advances, take_succ_cons] at fills
  obtain ⟨token, others, isFirst, found⟩ := fills.exists_cons
  rw [lexFrom_of_findSome? applies (cons_ne_nil c rest), isFirst, cons_append]
  exact ⟨token, _, rfl, found⟩

theorem ne_of_lexFrom {kind : TokenKind} {token : Token} {others : List Token}
    (avoids : ∀ rule ∈ code.rules, rule.Avoids kind before (c :: rest))
    (lineFeed : c = '\n' → kind ≠ .whitespace) (notError : kind ≠ .error)
    (isFirst : lexFrom .code before (c :: rest) = token :: others) : token.kind ≠ kind := by
  cases applies : code.rules.findSome? fun rule => rule before (c :: rest) with
  | some step =>
    obtain ⟨rule, member, applied⟩ := exists_of_findSome?_eq_some applies
    obtain ⟨found, more, isFound, _, length, inPieces⟩ := exists_lexFrom_of_findSome? applies
    rw [isFirst] at isFound
    obtain ⟨rfl, _⟩ := List.cons.inj isFound
    exact avoids rule member step applied _ inPieces
  | none =>
    rw [lexFrom_of_eq_none (findSome?_eq_none_iff.mp applies)] at isFirst
    split at isFirst
    · rename_i isLineFeed
      rw [← (List.cons.inj isFirst).1]
      exact (lineFeed isLineFeed).symm
    · rw [← (List.cons.inj isFirst).1]
      exact notError.symm

theorem exists_lexFrom_cons :
    ∃ token others, lexFrom .code before (c :: rest) = token :: others ∧
      token.value.head? = some c := by
  cases applies : code.rules.findSome? fun rule => rule before (c :: rest) with
  | some step =>
    obtain ⟨token, others, isFirst, starts, _⟩ := exists_lexFrom_of_findSome? applies
    exact ⟨token, others, isFirst, starts⟩
  | none =>
    rw [lexFrom_of_eq_none (findSome?_eq_none_iff.mp applies)]
    split
    · exact ⟨_, _, rfl, rfl⟩
    · exact ⟨_, _, rfl, rfl⟩

theorem exists_lexFrom_uncommented (notComment : c ≠ '%')
    (notEllipsis : ¬ ("..." : Text) <+: c :: rest) :
    ∃ token others, lexFrom .code before (c :: rest) = token :: others ∧
      token.isComment = false ∧ token.value.head? = some c := by
  obtain ⟨token, others, isFirst, starts⟩ := @exists_lexFrom_cons before c rest
  have other : token.kind ≠ .comment :=
    ne_of_lexFrom (avoids_comment notComment notEllipsis) (by simp) (by simp) isFirst
  exact ⟨token, others, isFirst, by simpa [Token.isComment] using other, starts⟩

theorem findSome?_indent (indent : isIndent c) :
    (code.rules.findSome? fun rule => rule before (c :: rest)) =
      (functionKeyword before (c :: rest)).or (some (.single .text 0 .code)) := by
  have isSign : c = ' ' ∨ c = '\t' := by simpa [isIndent] using indent
  rcases isSign with rfl | rfl
  · simp only [rules, findSome?_cons]
    cases functionKeyword before (' ' :: rest) <;> rfl
  · simp only [rules, findSome?_cons]
    cases functionKeyword before ('\t' :: rest) <;> rfl

theorem lexFrom_indent_of_eq_none (indent : isIndent c)
    (noKeyword : functionKeyword before (c :: rest) = none) :
    lexFrom .code before (c :: rest) = ⟨.text, [c]⟩ :: lexFrom .code (some c) rest := by
  have tried := @findSome?_indent before c rest indent
  rw [noKeyword, Option.none_or] at tried
  have fills : Fills (LexStep.single .text 0 .code).pieces [c] [⟨.text, [c]⟩] :=
    @Fills.piece .text [c] _ _ _ (cons_ne_nil c []) .nil
  exact lexFrom_of_fills tried fills

/-- A blank is a token of its own, unless the keyword of a function carries it. -/
theorem lexFrom_indent (indent : isIndent c) :
    lexFrom .code before (c :: rest) = ⟨.text, [c]⟩ :: lexFrom .code (some c) rest ∨
    ∃ token others, lexFrom .code before (c :: rest) = token :: others ∧
      token.kind = .keyword := by
  cases keyword : functionKeyword before (c :: rest) with
  | none => exact .inl (lexFrom_indent_of_eq_none indent keyword)
  | some step =>
    have tried := @findSome?_indent before c rest indent
    rw [keyword, Option.some_or] at tried
    obtain ⟨token, others, isFirst, _, length, inPieces⟩ := exists_lexFrom_of_findSome? tried
    have isKeyword := (functionKeyword_gives _ _ _ keyword).listed _ inPieces
    exact .inr ⟨token, others, isFirst, by simpa using isKeyword⟩

/-- Behind the blanks stands neither a comment sign nor an ellipsis. -/
structure EndsCommentBlock (text : Text) : Prop where
  notComment : (text.dropWhile isIndent).head? ≠ some '%'
  notEllipsis : ¬ ("..." : Text) <+: text.dropWhile isIndent

theorem EndsComments.endsCommentBlock {text : Text} (ends : EndsComments text) :
    EndsCommentBlock text where
  notComment first := (ends '%' first).1 rfl
  notEllipsis := by
    rintro ⟨rest, same⟩
    exact (ends '.' (by rw [← same]; rfl)).2 rfl

/-- What ends a block of comments does not start with a comment behind its indentation. -/
theorem EndsCommentBlock.lexFrom {text : Text} (ends : EndsCommentBlock text)
    (before : Option Char) :
    ∀ token ∈ ((lexFrom .code before text).dropWhile Token.isIndent).head?,
      token.isComment = false := by
  induction text generalizing before with
  | nil => simp [MatlabDocs.lexFrom]
  | cons c text ih =>
    obtain ⟨notComment, notEllipsis⟩ := ends
    by_cases indent : isIndent c
    · rw [dropWhile_cons_of_pos indent] at notComment notEllipsis
      rcases @lexFrom_indent before c text indent with blank | ⟨token, others, isFirst, keyword⟩
      · have isBlank : Token.isIndent ⟨.text, [c]⟩ := by
          simpa [Token.isIndent, isIndent] using indent
        rw [blank, dropWhile_cons_of_pos isBlank]
        exact ih ⟨notComment, notEllipsis⟩ (some c)
      · have notBlank : ¬ token.isIndent := by
          rw [Token.isIndent_iff]
          rintro (rfl | rfl)
          · cases keyword
          · cases keyword
        rw [isFirst, dropWhile_cons_of_neg notBlank]
        simp [Token.isComment, keyword]
    · rw [dropWhile_cons_of_neg indent] at notComment notEllipsis
      obtain ⟨token, others, isFirst, uncommented, starts⟩ :=
        @exists_lexFrom_uncommented before c text (by simpa using notComment) notEllipsis
      have notBlank : ¬ token.isIndent := by
        rw [Token.isIndent_iff]
        rintro (rfl | rfl)
        · obtain rfl : ' ' = c := by simpa using starts
          exact indent rfl
        · obtain rfl : '\t' = c := by simpa using starts
          exact indent rfl
      rw [isFirst, dropWhile_cons_of_neg notBlank]
      simpa using uncommented

/-- The text of a comment opens a block comment if nothing but blanks follows its brace. -/
def opensBlockComment : Text → Bool
  | '{' :: rest => rest.all isBlank
  | _ => false

theorem blockCommentOpening_eq_none {text : Text} (oneLine : '\n' ∉ text)
    (opensNone : opensBlockComment text = false) :
    blockCommentOpening before ('%' :: (text ++ '\n' :: rest)) = none := by
  cases text with
  | nil => rfl
  | cons c text =>
    by_cases brace : c = '{'
    · subst brace
      have notAll : ∃ c ∈ text, ¬ isBlank c := by
        simpa [opensBlockComment] using opensNone
      have shorter : (text.takeWhile isBlank).length ≠ text.length := by
        intro same
        obtain ⟨c, member, notBlank⟩ := notAll
        have whole : text.takeWhile isBlank = text :=
          (List.takeWhile_prefix isBlank).eq_of_length same
        rw [← whole] at member
        exact notBlank (all_eq_true.mp all_takeWhile c member)
      have inLine : '\n' ∉ (text ++ '\n' :: rest).takeWhile isBlank := by
        rw [takeWhile_append, if_neg shorter]
        intro member
        exact oneLine (mem_cons_of_mem _ ((takeWhile_sublist isBlank).mem member))
      rw [cons_append, blockCommentOpening]
      simp [inLine]
    · unfold blockCommentOpening
      split
      · rename_i same
        exact absurd (List.cons.inj (List.cons.inj same).2).1 brace
      · rfl

theorem functionKeyword_eq_none (inLine : c ≠ '\n') (text : Text) :
    functionKeyword (some c) text = none := by
  have notStart : atLineStart (some c) = false := by
    simpa [atLineStart] using inLine
  unfold functionKeyword
  dsimp only
  split
  · simp [notStart]
  · rfl

theorem lexFrom_lineFeed_of_eq_none (noKeyword : functionKeyword before ('\n' :: rest) = none) :
    lexFrom .code before ('\n' :: rest) =
      ⟨.whitespace, ['\n']⟩ :: lexFrom .code (some '\n') rest := by
  have noRule : ∀ rule ∈ code.rules, rule before ('\n' :: rest) = none := by
    simp only [rules, forall_mem_cons, noKeyword, true_and]
    exact ⟨rfl, rfl, rfl, rfl, rfl, rfl, rfl, rfl, rfl, rfl, rfl, rfl, rfl, rfl, by simp⟩
  rw [lexFrom_of_eq_none noRule, if_pos rfl]

theorem lexFrom_lineFeed (inLine : c ≠ '\n') :
    lexFrom .code (some c) ('\n' :: rest) =
      ⟨.whitespace, ['\n']⟩ :: lexFrom .code (some '\n') rest :=
  lexFrom_lineFeed_of_eq_none (functionKeyword_eq_none inLine _)

/-- A comment goes up to its line feed, which is a token of its own. -/
theorem lexFrom_comment {text : Text} (oneLine : '\n' ∉ text) (notEmpty : text ≠ [])
    (applies : (code.rules.findSome? fun rule => rule before (text ++ '\n' :: rest)) =
      some (.single .comment (text.length - 1) .code)) :
    lexFrom .code before (text ++ '\n' :: rest) =
      ⟨.comment, text⟩ :: ⟨.whitespace, ['\n']⟩ :: lexFrom .code (some '\n') rest := by
  have fills : Fills (LexStep.single .comment (text.length - 1) .code).pieces text
      [⟨.comment, text⟩] := by
    have whole := @Fills.piece .comment text _ _ _ notEmpty .nil
    rwa [append_nil, ← Nat.sub_add_cancel (length_pos_iff.mpr notEmpty)] at whole
  have isLast := getLast?_eq_some_getLast notEmpty
  have inLine : text.getLast notEmpty ≠ '\n' := fun same => oneLine (same ▸ getLast_mem notEmpty)
  rw [lexFrom_of_fills applies fills, isLast]
  exact congrArg (_ :: ·) (lexFrom_lineFeed inLine)

theorem lexFrom_commentLine {text : Text} (oneLine : '\n' ∉ text)
    (opensNone : opensBlockComment text = false) :
    lexFrom .code before ('%' :: (text ++ '\n' :: rest)) =
      ⟨.comment, '%' :: text⟩ :: ⟨.whitespace, ['\n']⟩ :: lexFrom .code (some '\n') rest := by
  have noCommand : shellCommand before ('%' :: (text ++ '\n' :: rest)) = none := rfl
  have comment : lineComment before ('%' :: (text ++ '\n' :: rest)) =
      some (.single .comment text.length .code) := by
    rw [lineComment, lineLength_append oneLine]
  refine @lexFrom_comment before rest ('%' :: text) (by simp [oneLine]) (cons_ne_nil _ _) ?_
  simp [rules, noCommand, blockCommentOpening_eq_none oneLine opensNone, comment]

end

end MatlabDocs
