import MatlabDocs.Proofs.Function.UncalledHeads
import MatlabDocs.Proofs.Token.PlainLines

/-!
# First comments

A script is documented by its first comment.  The words, gaps and signs of a signature line are cut
into tokens of their own, none of which is a comment.  So the first comment stands below the line,
and it is the same whatever the line holds.
-/

namespace MatlabDocs

open List

open ScriptDef

variable {rest : Text}

private theorem isPlain_of_isUncalledCharacter {line : Text}
    (characters : ∀ c ∈ line, isUncalledCharacter c) : IsPlain line := by
  have ne : ∀ {sign : Char}, isUncalledCharacter sign = false → ∀ c ∈ line, c ≠ sign :=
    fun other c member => ne_of_test (characters c member) other
  refine ⟨fun c member => ⟨ne (by decide) c member, ne (by decide) c member,
    ne (by decide) c member⟩, fun broken => ?_, fun member => ne (by decide) '\n' member rfl⟩
  exact ne (by decide) '.' (broken.subset (by decide)) rfl

/-- A step into a line without a call passes over an error, or goes down to the line feed. -/
private theorem Uncalled.firstComment_lexFrom_cases {line : Text} (uncalled : Uncalled line)
    (below : ∀ c ∈ (rest.dropWhile isBlank).head?, c ≠ '=')
    (visible : ∃ c ∈ line, isBlank c = false) (before : Option Char) :
    (∃ c behind, line = c :: behind ∧ (c.isAlpha || c == '_') = false ∧
      firstComment (lexFrom .functionHead before (line ++ '\n' :: rest)) =
        firstComment (lexFrom .functionHead (some c) (behind ++ '\n' :: rest))) ∨
    firstComment (lexFrom .functionHead before (line ++ '\n' :: rest)) =
      firstComment (lexFrom .code (some '\n') rest) := by
  rcases uncalled.lexFrom_cases below visible before with
    ⟨c, behind, isLine, notInitial, isError⟩ |
      ⟨blanks, word, behind, last, rfl, _, _, _, isLast, isFound⟩
  · refine .inl ⟨c, behind, isLine, notInitial, ?_⟩
    rw [isError, firstComment_cons rfl]
  · refine .inr ?_
    have uncommented : ∀ token ∈ pieceTokens .text blanks ++ [⟨.functionName, word⟩],
        token.isComment = false := by
      rw [pieceTokens]
      split
      · simp [Token.isComment]
      · simp [Token.isComment]
    rw [isFound, append_cons, firstComment_append uncommented]
    exact (isPlain_of_isUncalledCharacter
      uncalled.of_append.of_append.characters).firstComment_lexFrom
      (functionKeyword_eq_none (ne_of_test isLast (by decide)) _)

theorem firstComment_lexFrom_uncalled {front : Text} {word : Identifier} {ending : Text}
    (uncalled : Uncalled (front ++ (word.text ++ ending)))
    (below : ∀ c ∈ (rest.dropWhile isBlank).head?, c ≠ '=') (before : Option Char) :
    firstComment (lexFrom .functionHead before (front ++ (word.text ++ ending) ++ '\n' :: rest)) =
      firstComment (lexFrom .code (some '\n') rest) := by
  have wellFormed := word.wellFormed
  obtain ⟨first, others, isWord_text⟩ := exists_cons_of_ne_nil word.text_ne_nil
  rw [isWord_text, isIdentifier, Bool.and_eq_true] at wellFormed
  have visible : ∀ front, ∃ c ∈ front ++ (word.text ++ ending), isBlank c = false :=
    fun front => ⟨first, by simp [isWord_text],
      not_isBlank_of_isAsciiWord (isAsciiWord_of_initial wellFormed.1)⟩
  induction front generalizing before with
  | nil =>
    rcases uncalled.firstComment_lexFrom_cases below (visible []) before with
      ⟨c, behind, isLine, notInitial, _⟩ | atWord
    · rw [isWord_text] at isLine
      obtain ⟨rfl, _⟩ := List.cons.inj isLine
      rw [wellFormed.1] at notInitial
      cases notInitial
    · exact atWord
  | cons c front ih =>
    rcases uncalled.firstComment_lexFrom_cases below (visible (c :: front)) before with
      ⟨d, behind, isLine, _, atError⟩ | atWord
    · obtain ⟨rfl, rfl⟩ := List.cons.inj isLine
      exact atError.trans (ih (@Uncalled.of_append _ [c] uncalled) (some c))
    · exact atWord

theorem CalledHead.firstComment_lexFrom (head : CalledHead) (blank : ∀ c ∈ head.ending, isBlank c)
    (below : ∀ c ∈ (rest.dropWhile isBlank).head?, c ≠ '=') (before : Option Char) :
    firstComment (lexFrom .functionHead before (head.text ++ '\n' :: rest)) =
      firstComment (tokensBelow rest) := by
  have piece : ∀ (kind : TokenKind) (value : Text), kind ≠ .comment →
      ∀ token ∈ pieceTokens kind value, token.isComment = false := by
    intro kind value other
    rw [pieceTokens]
    split
    · simp
    · simpa [Token.isComment] using other
  have outputs : ∀ token ∈ head.outputTokens, token.isComment = false := by
    rw [outputTokens]
    cases head.outputs with
    | none => simp
    | some found =>
      exact forall_mem_cons.mpr ⟨rfl, forall_mem_cons.mpr
        ⟨rfl, piece .whitespace _ TokenKind.noConfusion⟩⟩
  have call : ∀ token ∈ head.callTokens, token.isComment = false :=
    forall_mem_cons.mpr ⟨rfl, forall_mem_cons.mpr
      ⟨rfl, forall_mem_append.mpr
        ⟨piece .text _ TokenKind.noConfusion, forall_mem_singleton.mpr rfl⟩⟩⟩
  have whole : ∀ token ∈ head.tokens, token.isComment = false :=
    forall_mem_append.mpr ⟨piece .whitespace _ TokenKind.noConfusion,
      forall_mem_append.mpr ⟨outputs, call⟩⟩
  rw [head.lexFrom_text_of_blank blank below before, firstComment_append whole,
    firstComment_append (piece .whitespace _ TokenKind.noConfusion)]

end MatlabDocs
