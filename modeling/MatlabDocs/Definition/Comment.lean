import MatlabDocs.Token.Basic

/-!
# Comment blocks

The comment lines that document a function or a script. They follow one another, each
after its indentation, and the first token that is no comment ends them.
-/

namespace MatlabDocs

/-- Passes over blanks and tabs, but keeps the last token. -/
def skipIndentTokens (current : Token) : List Token → Token × List Token
  | [] => (current, [])
  | next :: rest => if current.isIndent then skipIndentTokens next rest else (current, next :: rest)

theorem skipIndentTokens_length_le (current : Token) (tokens : List Token) :
    (skipIndentTokens current tokens).2.length ≤ tokens.length := by
  induction tokens generalizing current with
  | nil => simp [skipIndentTokens]
  | cons next rest shorter =>
    unfold skipIndentTokens
    split
    · exact Nat.le_succ_of_le (shorter next)
    · simp

structure CommentBlock where
  text : Text
  ending : Token
  rest : List Token
  deriving DecidableEq, Repr

/-- Reads the comment block that starts with the token `current`. The token after a comment
is its line end; any other token in that place is passed over. -/
def readCommentBlock (current : Token) (tokens : List Token) : CommentBlock :=
  if current.isComment then
    match tokens with
    | [] => ⟨current.commentText, current, []⟩
    | lineEnd :: afterLine =>
      let line := current.commentText ++ if lineEnd.isNewline then ['\n'] else []
      match afterLine with
      | [] => ⟨line, current, []⟩
      | next :: afterNext =>
        let skipped := skipIndentTokens next afterNext
        let block := readCommentBlock skipped.1 skipped.2
        { block with text := line ++ block.text }
  else ⟨[], current, tokens⟩
termination_by tokens.length
decreasing_by
  have shorter := skipIndentTokens_length_le next afterNext
  simp only [List.length_cons]
  omega

end MatlabDocs
