import MatlabDocs.Proofs.Token.Normalized
import MatlabDocs.Source.Prepared

/-!
# What comes below a signature

Before code is cut into tokens, its header is left out, its continued lines are joined,
missing parentheses are put in and its line ends are made plain.  None of this
touches a first line without dots, quotes and comment signs, nor the blanks below it up to
the first comment sign.
-/

namespace MatlabDocs

open List

/-- Nothing but blanks, or a comment sign behind blanks. -/
def CommentFollows (text : Text) : Prop :=
  ∀ c ∈ (text.dropWhile isBlank).head?, c = '%'

/-- Nothing, or a comment. -/
inductive IsComment : Text → Prop where
  | nothing : IsComment []
  | comment (text : Text) : IsComment ('%' :: text)

theorem commentFollows_append {blanks comment : Text} (blank : ∀ c ∈ blanks, isBlank c)
    (isComment : IsComment comment) : CommentFollows (blanks ++ comment) := by
  rw [CommentFollows, dropWhile_append_of_pos blank]
  cases isComment with
  | nothing => simp
  | comment text => simp [dropWhile_cons_of_neg (show ¬ isBlank '%' by decide)]

theorem CommentFollows.exists_append {text : Text} (follows : CommentFollows text) :
    ∃ blanks comment, text = blanks ++ comment ∧ (∀ c ∈ blanks, isBlank c) ∧
      IsComment comment := by
  refine ⟨text.takeWhile isBlank, text.dropWhile isBlank,
    takeWhile_append_dropWhile.symm, all_eq_true.mp all_takeWhile, ?_⟩
  cases rest : text.dropWhile isBlank with
  | nil => exact .nothing
  | cons c rest' =>
    obtain rfl : c = '%' := follows c (by simp [rest])
    exact .comment rest'

theorem dropHeader_cons {c : Char} (rest : Text) (notBreak : isLineBreak c = false)
    (notIndent : isIndent c = false) (notComment : c ≠ '%') :
    dropHeader (c :: rest) = c :: rest := by
  have notLineFeed : c ≠ '\n' := by
    rintro rfl
    exact absurd notBreak (by decide)
  have notReturn : c ≠ '\r' := by
    rintro rfl
    exact absurd notBreak (by decide)
  have noHeader : ∀ line, isHeaderLine (c :: line) = false := by
    intro line
    simp [isHeaderLine, dropWhile_cons_of_neg (by simp [notIndent] : ¬ isIndent c = true),
      notComment, notLineFeed]
  have first : ∃ line lines, Text.fullLines (c :: rest) = (c :: line) :: lines := by
    rw [Text.fullLines.eq_3 c rest (fun _ same _ => notReturn same), if_neg (by simp [notBreak])]
    split
    · exact ⟨[], [], rfl⟩
    · exact ⟨_, _, rfl⟩
  obtain ⟨line, lines, shape⟩ := first
  have none : headerLength (c :: rest) = 0 := by
    rw [headerLength, shape, takeWhile_cons_of_neg (by simp [noHeader])]
    rfl
  rw [dropHeader, none]
  rfl

section

def isContinuationSign (c : Char) : Bool :=
  c == '.' || c == '\x27' || c == '"' || c == '%'

variable {c : Char} {line : Text}

theorem isContinuationSign_eq_false {test : Char → Bool} (passes : test c)
    (fails : ['.', '\x27', '"', '%'].any test = false) : isContinuationSign c = false := by
  rw [any_eq_false] at fails
  rw [Bool.eq_false_iff]
  intro isSign
  simp only [isContinuationSign, Bool.or_eq_true, beq_iff_eq, or_assoc] at isSign
  have listed : c ∈ ['.', '\x27', '"', '%'] := by simpa using isSign
  exact fails c listed passes

theorem startsWith_ellipsis_cons (notDot : c ≠ '.') :
    Text.startsWith (c :: line) "..." = false := by
  have different : ('.' == c) = false := by simpa using notDot.symm
  show ('.' == c && List.isPrefixOf ['.', '.'] line) = false
  rw [different, Bool.false_and]

theorem dropEllipsisInQuotes_cons (notQuote : c ≠ '\x27') :
    dropEllipsisInQuotes (c :: line) = c :: dropEllipsisInQuotes line := by
  have passes : (c != '\x27') = true := by simpa using notQuote
  simp only [dropEllipsisInQuotes, takeWhile_cons, passes, if_true, length_cons, drop_succ_cons]
  split <;> rfl

theorem joinContinued_cons_cons (line next : Text) (lines : List Text) :
    joinContinued (line :: next :: lines) =
      (beforeContinuation? line).getD (line ++ ['\n']) ++ joinContinued (next :: lines) :=
  rfl

private theorem joinContinued_cons (plain : isContinuationSign c = false) (lines : List Text) :
    joinContinued ((c :: line) :: lines) = c :: joinContinued (line :: lines) := by
  simp only [isContinuationSign, Bool.or_eq_false_iff, beq_eq_false_iff_ne] at plain
  obtain ⟨⟨⟨notDot, notQuote⟩, notDouble⟩, notPercent⟩ := plain
  have continuation : beforeContinuation? (c :: line) =
      (beforeContinuation? line).map (c :: ·) := by
    rw [beforeContinuation?]
    simp only [startsWith_ellipsis_cons notDot, Bool.false_eq_true, if_false, Option.or_none]
    rw [if_neg (by simp [notQuote, notDouble, notPercent])]
  cases lines with
  | nil => rfl
  | cons next lines =>
    rw [joinContinued_cons_cons, joinContinued_cons_cons, continuation]
    cases beforeContinuation? line <;> rfl

theorem joinContinuedLines_append {front : Text}
    (plain : ∀ c ∈ front, isContinuationSign c = false) (rest : Text) :
    joinContinuedLines (front ++ rest) = front ++ joinContinuedLines rest := by
  induction front with
  | nil => rfl
  | cons c front ih =>
    obtain ⟨plainFirst, plainLater⟩ := forall_mem_cons.mp plain
    have notQuote : c ≠ '\x27' := by
      rintro rfl
      exact absurd plainFirst (by decide)
    obtain ⟨piece, pieces, split⟩ := Text.exists_splitOn_eq_cons '\n' (front ++ rest)
    rw [cons_append, cons_append, ← ih plainLater, joinContinuedLines, joinContinuedLines]
    by_cases lineFeed : c = '\n'
    · simp [Text.splitOn, lineFeed, split, dropEllipsisInQuotes, joinContinued, beforeContinuation?]
    · rw [Text.splitOn, if_neg lineFeed, split]
      simp only [map_cons, dropEllipsisInQuotes_cons notQuote, joinContinued_cons plainFirst]

private theorem joinContinuedLines_isComment {comment : Text} (isComment : IsComment comment) :
    IsComment (joinContinuedLines comment) := by
  cases isComment with
  | nothing => exact .nothing
  | comment text =>
    obtain ⟨piece, pieces, split⟩ := Text.exists_splitOn_eq_cons '\n' text
    have notContinued : ∀ line, beforeContinuation? ('%' :: line) = none := by
      intro line
      have starts := @startsWith_ellipsis_cons '%' line (by decide)
      rw [beforeContinuation?]
      simp only [starts, Bool.false_eq_true, if_false, Option.or_none]
      rfl
    rw [joinContinuedLines, Text.splitOn, if_neg (by decide), split, map_cons,
      dropEllipsisInQuotes_cons (by decide)]
    cases pieces with
    | nil => exact .comment _
    | cons next pieces =>
      rw [map_cons, joinContinued_cons_cons, notContinued]
      exact .comment _

theorem CommentFollows.joinContinuedLines {text : Text} (follows : CommentFollows text) :
    CommentFollows (joinContinuedLines text) := by
  obtain ⟨blanks, comment, rfl, blank, isComment⟩ := follows.exists_append
  have plain : ∀ c ∈ blanks, isContinuationSign c = false :=
    fun c member => isContinuationSign_eq_false (blank c member) (by decide)
  rw [joinContinuedLines_append plain]
  exact commentFollows_append blank (joinContinuedLines_isComment isComment)

end

theorem assignedSignature?_eq_none {text : Text}
    (noKeyword : ∀ c ∈ (text.dropWhile isIndent).head?, c ≠ 'f') :
    assignedSignature? text = none := by
  have notStarted : Text.afterStart? "function" (text.dropWhile isIndent) = none := by
    cases shape : text.dropWhile isIndent with
    | nil => rfl
    | cons c rest =>
      have different : ('f' == c) = false := by
        simpa using (noKeyword c (by simp [shape])).symm
      have keyword : ("function" : Text) = 'f' :: "unction" := rfl
      have notPrefix : ("function" : Text).isPrefixOf (c :: rest) = false := by
        rw [keyword, List.isPrefixOf, different, Bool.false_and]
      rw [Text.afterStart?, notPrefix]
      rfl
  rw [assignedSignature?, notStarted]
  rfl

theorem parenthesizeFrom_cons {lineStart : Bool} {c : Char} {rest : Text}
    (noSignature : lineStart = true → assignedSignature? (c :: rest) = none) :
    parenthesizeFrom lineStart (c :: rest) = c :: parenthesizeFrom (c == '\n') rest := by
  have none : (if lineStart = true then assignedSignature? (c :: rest) else none) = none := by
    split
    · exact noSignature ‹_›
    · rfl
  rw [parenthesizeFrom, none]

theorem parenthesizeFrom_append {front : Text} (oneLine : '\n' ∉ front) (rest : Text) :
    parenthesizeFrom false (front ++ rest) = front ++ parenthesizeFrom false rest := by
  induction front with
  | nil => rfl
  | cons c front ih =>
    have notLineFeed : (c == '\n') = false := by
      simpa using fun same : c = '\n' => oneLine (by simp [same])
    rw [cons_append, parenthesizeFrom_cons (by simp), notLineFeed,
      ih fun member => oneLine (by simp [member]), cons_append]

theorem parenthesizeFrom_of_signature {matched name arguments tail : Text} (notEmpty : matched ≠ [])
    (found : assignedSignature? (matched ++ tail) = some ⟨name, arguments, tail⟩) :
    parenthesizeFrom true (matched ++ tail) =
      parenthesized ⟨name, arguments, tail⟩ matched ++
        parenthesizeFrom (matched.getLast? == some '\n') tail := by
  obtain ⟨c, rest, rfl⟩ := exists_cons_of_ne_nil notEmpty
  have taken : (c :: (rest ++ tail)).take ((rest ++ tail).length + 1 - tail.length) =
      c :: rest := by
    have length : (rest ++ tail).length + 1 - tail.length = (c :: rest).length := by
      simp only [length_append, length_cons]
      omega
    rw [length, ← cons_append, take_left]
  have dropped : (rest ++ tail).drop ((c :: rest).length - 1) = tail := by
    rw [length_cons, Nat.add_sub_cancel, drop_left]
  rw [cons_append] at found ⊢
  rw [parenthesizeFrom, if_pos rfl, found]
  simp only [taken, dropped]

end MatlabDocs
