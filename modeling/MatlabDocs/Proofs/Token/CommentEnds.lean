import MatlabDocs.Proofs.Function.Remaining
import MatlabDocs.Proofs.Token.PlainLines

/-!
# The ends of comments

Only the comment sign and the ellipsis give comments, and both take the rest of the line.  The code
ends in a line feed, and no other rule takes the one behind a comment.  So each comment has its line
feed behind it, and a comment block is read line by line without the loss of a token.
-/

namespace MatlabDocs

open List LexMode LexRule

/-- Each comment has its line feed behind it. -/
def CommentsEnd : List Token → Prop
  | [] => True
  | token :: rest =>
    (token.isComment → rest.head? = some ⟨.whitespace, ['\n']⟩) ∧ CommentsEnd rest

namespace CommentsEnd

variable {front rest : List Token}

theorem append (uncommented : ∀ token ∈ front, token.isComment = false) (ends : CommentsEnd rest) :
    CommentsEnd (front ++ rest) := by
  induction front with
  | nil => exact ends
  | cons token front ih =>
    obtain ⟨other, others⟩ := forall_mem_cons.mp uncommented
    exact ⟨fun isComment => absurd isComment (by simp [other]), ih others⟩

theorem of_append (ends : CommentsEnd (front ++ rest)) : CommentsEnd rest := by
  induction front with
  | nil => exact ends
  | cons token front ih => exact ih ends.2

end CommentsEnd

section

variable {before : Option Char} {text : Text} {step : LexStep}

/-- A rule gives no comment, or a comment that takes the rest of the line. -/
theorem LexMode.comment_cases {mode : LexMode} :
    ∀ rule ∈ mode.rules, rule before text = some step →
      (∀ piece ∈ step.pieces, piece.1 ≠ .comment) ∨
      step.mode = .code ∧ step.pieces = [(.comment, lineLength text)] := by
  intro rule member applied
  obtain ⟨kinds, target, inTable, gives⟩ := exists_mem_table member
  have known : ∀ entry ∈ mode.table,
      entry.1 = lineComment ∨ entry.1 = ellipsis ∨ .comment ∉ entry.2.1 := by
    cases mode <;> simp [table, headKinds]
  rcases known _ inTable with rfl | rfl | other
  · unfold lineComment at applied
    split at applied
    · cases applied
      exact .inr ⟨rfl, by rw [lineLength_cons (by decide)]; rfl⟩
    · cases applied
  · unfold ellipsis at applied
    split at applied
    · cases applied
      refine .inr ⟨rfl, ?_⟩
      rw [lineLength_cons (by decide), lineLength_cons (by decide), lineLength_cons (by decide),
        LexStep.single, Nat.add_comm 2]
    · cases applied
  · exact .inl (gives.avoids other before text step applied)

end

/-- What takes the rest of the line leaves the line feed. -/
private theorem exists_lineFeed_of_lineLength {taken rest : Text}
    (line : taken.length = lineLength (taken ++ rest))
    (ended : ∀ c ∈ (taken ++ rest).getLast?, c = '\n') (notEmpty : taken ≠ []) :
    '\n' ∉ taken ∧ ∃ more, rest = '\n' :: more := by
  have isLine : (taken ++ rest).takeWhile (· != '\n') = taken := by
    rw [prefix_iff_eq_take.mp (List.takeWhile_prefix (· != '\n')), ← lineLength, ← line, take_left]
  have isRest : (taken ++ rest).dropWhile (· != '\n') = rest := by
    rw [← drop_length_takeWhile, isLine, drop_left]
  have inLine : '\n' ∉ taken := by
    rw [← isLine]
    exact fun member => absurd (all_eq_true.mp all_takeWhile _ member) (by decide)
  refine ⟨inLine, ?_⟩
  cases rest with
  | nil =>
    rw [append_nil] at ended
    exact absurd (ended _ (getLast?_eq_some_getLast notEmpty) ▸ getLast_mem notEmpty) inLine
  | cons c more =>
    have stops := head?_dropWhile_not (· != '\n') (taken ++ c :: more)
    rw [isRest] at stops
    exact ⟨more, by simpa using stops⟩

variable {tokens : List Token}

theorem Scans.commentsEnd {mode : LexMode} {before : Option Char} {text : Text}
    (scan : Scans mode before text tokens)
    (ended : ∀ c ∈ text.getLast?, c = '\n') : CommentsEnd tokens := by
  induction scan with
  | done => trivial
  | @rule mode before earlier later first step taken rest tokens others order _ applied fills scan
      ih =>
    have endedRest : ∀ c ∈ rest.getLast?, c = '\n' := by
      intro c isLast
      exact ended c (by rw [getLast?_append, isLast]; rfl)
    have member : first ∈ mode.rules := by simp [order]
    rcases comment_cases first member applied with avoids | ⟨isCode, isComment⟩
    · refine (ih endedRest).append fun token inTokens => ?_
      obtain ⟨length, inPieces⟩ := fills.kind_mem token inTokens
      simpa [Token.isComment] using avoids _ inPieces
    · have length := fills.length_eq
      rw [isComment, piecesLength, piecesLength, Nat.add_zero] at length
      have notEmpty := step.ne_nil_of_fills fills
      obtain ⟨inLine, more, rfl⟩ := exists_lineFeed_of_lineLength length ended notEmpty
      have isLast := getLast?_eq_some_getLast notEmpty
      have lastInLine : taken.getLast notEmpty ≠ '\n' :=
        fun same => inLine (same ▸ getLast_mem notEmpty)
      have isOthers := scan.lexFrom_eq
      rw [isCode, isLast, lexFrom_lineFeed lastInLine] at isOthers
      rw [isComment] at fills
      rw [fills.eq_singleton notEmpty, ← isOthers]
      exact ⟨fun _ => rfl, isOthers ▸ ih endedRest⟩
  | lineFeed _ _ ih =>
    refine ⟨fun isComment => absurd isComment Bool.false_ne_true, ih fun c isLast => ended c ?_⟩
    rw [getLast?_cons, isLast]
    rfl
  | error _ _ _ ih =>
    refine ⟨fun isComment => absurd isComment Bool.false_ne_true, ih fun c isLast => ended c ?_⟩
    rw [getLast?_cons, isLast]
    rfl

/-! ### Comment blocks -/

/-- The text of the comment lines that the tokens start with, and what follows these lines.  Each
line is a comment with its line feed, and the indentation of the next line. -/
inductive CommentLines : List Token → Text → List Token → Prop where
  | done : CommentLines [] [] []
  | stop {first : Token} {rest : List Token} : first.isComment = false →
      CommentLines (first :: rest) [] (first :: rest)
  | line {comment : Token} {indent tokens behind : List Token} {text : Text} :
      comment.isComment → (∀ token ∈ indent, token.isIndent) → CommentLines tokens text behind →
      CommentLines (comment :: ⟨.whitespace, ['\n']⟩ :: (indent ++ tokens))
        (comment.commentText ++ '\n' :: text) behind

private theorem exists_skipIndentTokens (current : Token) (tokens : List Token) :
    ∃ indent, (∀ token ∈ indent, token.isIndent) ∧ current :: tokens =
      indent ++ (skipIndentTokens current tokens).1 :: (skipIndentTokens current tokens).2 := by
  induction tokens generalizing current with
  | nil => exact ⟨[], by simp, rfl⟩
  | cons next rest ih =>
    rw [skipIndentTokens]
    split
    · rename_i isIndent
      obtain ⟨indent, areIndent, split⟩ := ih next
      exact ⟨current :: indent, forall_mem_cons.mpr ⟨isIndent, areIndent⟩,
        congrArg (current :: ·) split⟩
    · exact ⟨[], by simp, rfl⟩

/-- If comments end their lines, a block is read line by line: what follows the lines is left, or
nothing is. -/
theorem CommentsEnd.commentLines {current : Token} (ends : CommentsEnd (current :: tokens)) :
    ∃ behind, CommentLines (current :: tokens) (readCommentBlock current tokens).text behind ∧
      (behind = (readCommentBlock current tokens).ending :: (readCommentBlock current tokens).rest ∨
        behind = [] ∧ (readCommentBlock current tokens).rest = []) := by
  fun_induction readCommentBlock current tokens with
  | case1 current isComment => cases ends.1 isComment
  | case2 current isComment lineEnd line =>
    obtain rfl : lineEnd = ⟨.whitespace, ['\n']⟩ := by simpa using ends.1 isComment
    exact ⟨[], @CommentLines.line current [] [] [] [] isComment (by simp) .done, .inr ⟨rfl, rfl⟩⟩
  | case3 current isComment lineEnd line next afterNext skipped block ih =>
    obtain rfl : lineEnd = ⟨.whitespace, ['\n']⟩ := by simpa using ends.1 isComment
    obtain ⟨indent, areIndent, split⟩ := exists_skipIndentTokens next afterNext
    have endsLater := ends.2.2
    rw [split] at endsLater
    obtain ⟨behind, lines, left⟩ := ih endsLater.of_append
    refine ⟨behind, ?_, left⟩
    have isText : line ++ block.text = current.commentText ++ '\n' :: block.text :=
      append_assoc _ ['\n'] _
    rw [split, isText]
    exact .line isComment areIndent lines
  | case4 current tokens notComment =>
    exact ⟨_, .stop (Bool.eq_false_iff.mpr notComment), .inl rfl⟩

/-- The text is that of comment lines among the tokens, if it is not empty. -/
def IsDocumented (tokens : List Token) (text : Text) : Prop :=
  text = [] ∨ ∃ front lines behind, tokens = front ++ lines ∧ CommentLines lines text behind

theorem CommentsEnd.isDocumented (ends : CommentsEnd tokens) {first : Token}
    {rest : List Token} (suffix : first :: rest <:+ tokens) :
    IsDocumented tokens (readCommentBlock first rest).text := by
  obtain ⟨front, split⟩ := suffix
  rw [← split] at ends
  obtain ⟨behind, lines, _⟩ := ends.of_append.commentLines
  exact .inr ⟨front, _, behind, split.symm, lines⟩

private theorem commentsEnd_lex (code : Text) : CommentsEnd (lex code) := by
  refine (scans_lexFrom .code none (normalizeCode code)).commentsEnd fun c isLast => ?_
  rw [normalizeCode_eq, getLast?_append] at isLast
  exact (Option.some.inj isLast).symm

/-- In all code, each comment has its line feed behind it.  So wherever a comment block is read, no
token is lost, and each comment of it gives a line of text; this holds for the docstrings of
functions and of scripts. -/
theorem comments_end_lines (code : Text) :
    (∀ front comment rest, lex code = front ++ comment :: rest → comment.isComment →
      ∃ later, rest = ⟨.whitespace, ['\n']⟩ :: later) ∧
    (∀ first rest, first :: rest <:+ lex code →
      ∃ behind, CommentLines (first :: rest) (readCommentBlock first rest).text behind ∧
        (behind = (readCommentBlock first rest).ending :: (readCommentBlock first rest).rest ∨
          behind = [] ∧ (readCommentBlock first rest).rest = [])) ∧
    (∀ naming module tokens, tokens <:+ lex code →
      IsDocumented tokens (FunctionDef.read naming module tokens).definition.docstring) ∧
    ∀ name module, IsDocumented (lex code) (ScriptDef.read name module (lex code)).docstring := by
  have ends := commentsEnd_lex code
  refine ⟨?comment, ?block, ?function, ?script⟩
  case comment =>
    intro front comment rest split isComment
    rw [split] at ends
    have follows := ends.of_append.1 isComment
    cases rest with
    | nil => cases follows
    | cons next later => exact ⟨later, by simpa using follows⟩
  case block =>
    rintro first rest ⟨front, split⟩
    rw [← split] at ends
    exact ends.of_append.commentLines
  case function =>
    rintro naming module tokens ⟨front, split⟩
    rw [← split] at ends
    cases tokens with
    | nil => exact .inl rfl
    | cons keyword rest =>
      rcases (FunctionDef.read_leaves naming module keyword rest).documented with
        nothing | ⟨first, more, suffix, text⟩
      · exact .inl nothing
      · rw [text]
        exact ends.of_append.isDocumented (suffix.trans (suffix_cons keyword rest))
  case script =>
    intro name module
    have shown : (ScriptDef.read name module (lex code)).docstring =
        ScriptDef.firstComment (lex code) := rfl
    rw [shown, ScriptDef.firstComment]
    split
    · exact .inl rfl
    · rename_i comment rest isRest
      exact ends.isDocumented (isRest ▸ dropWhile_suffix _)

theorem comments_end_lines_continued :
    lex "a ... b\n" = [⟨.name, "a"⟩, ⟨.text, " "⟩] ++ ⟨.comment, "... b"⟩ :: [⟨.whitespace, "\n"⟩] ∧
      ∃ later, [(⟨.whitespace, "\n"⟩ : Token)] = ⟨.whitespace, ['\n']⟩ :: later :=
  have split : lex "a ... b\n" =
      [⟨.name, "a"⟩, ⟨.text, " "⟩] ++ ⟨.comment, "... b"⟩ :: [⟨.whitespace, "\n"⟩] := by
    decide +kernel
  ⟨split, (comments_end_lines "a ... b\n").1 _ _ _ split rfl⟩

end MatlabDocs
