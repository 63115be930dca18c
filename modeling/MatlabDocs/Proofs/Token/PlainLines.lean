import MatlabDocs.Definition.Script
import MatlabDocs.Proofs.Token.CommentTokens

/-!
# Plain lines

In a line without comment signs, quotes and ellipses every rule of plain code stays in the line and
gives no comment.  So the first comment of a code stands below such a line.
-/

namespace MatlabDocs

open List LexMode LexRule

/-- Nothing in the line starts a comment or a quoted text. -/
structure IsPlain (line : Text) : Prop where
  signs : ∀ c ∈ line, c ≠ '%' ∧ c ≠ '\x27' ∧ c ≠ '"'
  unbroken : ¬ ("..." : Text) <:+: line
  oneLine : '\n' ∉ line

theorem IsPlain.of_suffix {line rest : Text} (plain : IsPlain line) (suffix : rest <:+ line) :
    IsPlain rest where
  signs c member := plain.signs c (suffix.subset member)
  unbroken broken := plain.unbroken (broken.trans suffix.isInfix)
  oneLine member := plain.oneLine (suffix.subset member)

variable {before : Option Char} {c : Char} {rest : Text}

theorem LexMode.inLine_of_code_rule {step : LexStep} (signs : c ≠ '%' ∧ c ≠ '\x27' ∧ c ≠ '"')
    (noKeyword : functionKeyword before (c :: rest) = none) :
    ∀ rule ∈ code.rules, rule before (c :: rest) = some step →
      step.mode = .code ∧ step.length ≤ lineLength (c :: rest) := by
  have fits : ∀ {rule : LexRule} {kinds : List TokenKind}, rule.GivesInLine kinds →
      rule before (c :: rest) = some step →
      step.mode = .code ∧ step.length ≤ lineLength (c :: rest) := by
    intro rule kinds gives applied
    obtain ⟨fits, inLine⟩ := gives before _ step applied
    exact ⟨fits.leads, inLine⟩
  have absent : none = some step → step.mode = .code ∧ step.length ≤ lineLength (c :: rest) :=
    fun isStep => absurd isStep.symm (Option.some_ne_none step)
  have blockComment : blockCommentOpening before (c :: rest) = none := by
    simp [blockCommentOpening, signs.1]
  have doubleQuoted : doubleQuoted before (c :: rest) = none := by
    simp [LexRule.doubleQuoted, signs.2.2]
  have quoteOpening : quoteOpening before (c :: rest) = none := by
    simp [LexRule.quoteOpening, signs.2.1]
  simp only [rules, forall_mem_cons, blockComment, noKeyword, doubleQuoted, quoteOpening]
  exact ⟨fits shellCommand_gives, absent, fits lineComment_gives, absent, fits knownWord_gives,
    fits ellipsis_gives, fits comparison_gives, fits arithmetic_gives, fits punctuation_gives,
    fits transpose_gives, fits number_gives, absent, absent, fits name_gives,
    fits otherCharacter_gives, by simp⟩

namespace ScriptDef

variable {front rest : List Token}

theorem firstComment_append (uncommented : ∀ token ∈ front, token.isComment = false) :
    firstComment (front ++ rest) = firstComment rest := by
  rw [firstComment, dropWhile_append_of_pos, firstComment]
  intro token member
  simp [uncommented token member]

theorem firstComment_cons {token : Token} (uncommented : token.isComment = false) :
    firstComment (token :: rest) = firstComment rest :=
  @firstComment_append [token] rest (by simpa using uncommented)

end ScriptDef

open ScriptDef

variable {text : Text} {tokens : List Token}

theorem kind_mem_cutPieces {pieces : List (TokenKind × Nat)} :
    ∀ token ∈ cutPieces pieces text, ∃ length, (token.kind, length) ∈ pieces := by
  fun_induction cutPieces pieces text with
  | case1 => simp
  | case2 kind length pieces text value tokens isEmpty ih =>
    intro token member
    obtain ⟨length, inPieces⟩ := ih token member
    exact ⟨length, mem_cons_of_mem _ inPieces⟩
  | case3 kind length pieces text value tokens notEmpty ih =>
    refine forall_mem_cons.mpr ⟨⟨_, mem_cons_self⟩, fun token member => ?_⟩
    obtain ⟨length, inPieces⟩ := ih token member
    exact ⟨length, mem_cons_of_mem _ inPieces⟩

theorem Fills.kind_mem {pieces : List (TokenKind × Nat)}
    (fills : Fills pieces text tokens) :
    ∀ token ∈ tokens, ∃ length, (token.kind, length) ∈ pieces := by
  rw [← fills.cutPieces_eq []]
  exact kind_mem_cutPieces

theorem LexStep.ne_nil_of_fills {step : LexStep}
    (fills : Fills step.pieces text tokens) : text ≠ [] := by
  rintro rfl
  exact absurd (fills.length_eq ▸ step.advances) (Nat.lt_irrefl _)

theorem Fills.eq_singleton {kind : TokenKind} {length : Nat}
    (fills : Fills [(kind, length)] text tokens) (notEmpty : text ≠ []) :
    tokens = [⟨kind, text⟩] := by
  cases fills with
  | empty rest =>
    cases rest
    exact absurd rfl notEmpty
  | piece _ rest =>
    cases rest
    rw [append_nil]

/-- There is no comment in what is left of a plain line, so the first one stands below it. -/
theorem IsPlain.firstComment_lexFrom {line : Text} (plain : IsPlain line)
    (noKeyword : functionKeyword before (line ++ '\n' :: rest) = none) :
    firstComment (lexFrom .code before (line ++ '\n' :: rest)) =
      firstComment (lexFrom .code (some '\n') rest) := by
  induction length : line.length using Nat.strongRecOn generalizing line before with
  | ind bound ih =>
    cases line with
    | nil =>
      rw [nil_append, lexFrom_lineFeed_of_eq_none noKeyword]
      exact firstComment_cons rfl
    | cons c line =>
      have signs := plain.signs c mem_cons_self
      have inLine : ∀ d ∈ c :: line, d ≠ '\n' := fun d member same => plain.oneLine (same ▸ member)
      cases applies : code.rules.findSome? fun rule =>
          rule before (c :: (line ++ '\n' :: rest)) with
      | none =>
        have notLineFeed := inLine c mem_cons_self
        rw [cons_append, lexFrom_of_eq_none (findSome?_eq_none_iff.mp applies),
          if_neg notLineFeed, firstComment_cons rfl]
        exact ih line.length (by simp [← length]) (plain.of_suffix (suffix_cons c line))
          (functionKeyword_eq_none notLineFeed _) rfl
      | some step =>
        obtain ⟨rule, member, applied⟩ := exists_of_findSome?_eq_some applies
        obtain ⟨isCode, within⟩ := inLine_of_code_rule signs noKeyword rule member applied
        replace within : step.length ≤ (c :: line).length := by
          rwa [← @lineLength_append (c :: line) rest plain.oneLine]
        have advances : 0 < step.length := step.advances
        have notEllipsis : ¬ ("..." : Text) <+: c :: (line ++ '\n' :: rest) := by
          rw [← isPrefixOf_iff_prefix, ← cons_append, isPrefixOf_append_stop (by decide)]
          exact fun starts => plain.unbroken (List.isPrefixOf_iff_prefix.mp starts).isInfix
        have uncommented : ∀ token ∈ cutPieces step.pieces (c :: (line ++ '\n' :: rest)),
            token.isComment = false := by
          intro token inTokens
          obtain ⟨pieceLength, inPieces⟩ := kind_mem_cutPieces token inTokens
          have other := avoids_comment signs.1 notEllipsis rule member step applied _ inPieces
          simpa [Token.isComment] using other
        have taken : (c :: (line ++ '\n' :: rest)).take step.length =
            (c :: line).take step.length := by
          rw [← cons_append, take_append_of_le_length within]
        have dropped : (c :: (line ++ '\n' :: rest)).drop step.length =
            (c :: line).drop step.length ++ '\n' :: rest := by
          rw [← cons_append, drop_append_of_le_length within]
        have notEmpty : (c :: line).take step.length ≠ [] := by
          rw [Ne, take_eq_nil_iff]
          simp only [reduceCtorEq, or_false]
          omega
        have isLast := getLast?_eq_some_getLast notEmpty
        have lastInLine := inLine _ (mem_of_mem_take (mem_of_getLast? isLast))
        rw [cons_append, lexFrom_of_findSome? applies (cons_ne_nil _ _), isCode,
          firstComment_append uncommented, taken, dropped, isLast]
        refine ih ((c :: line).drop step.length).length ?_
          (plain.of_suffix (drop_suffix _ _)) (functionKeyword_eq_none lastInLine _) rfl
        rw [length_drop, ← length, length_cons]
        omega

end MatlabDocs
