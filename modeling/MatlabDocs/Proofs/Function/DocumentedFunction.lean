import MatlabDocs.Proofs.Function.SignatureRoundTrip

/-!
# Documented functions

The comment lines below a signature are prepared as they stand, and each of them is a comment
token with a line feed behind it.  So the docstring of a function is made of these lines.
-/

namespace MatlabDocs

open List

/-- What stands behind the sign of a comment line.  It does not open a block comment, and none of
its ellipses has a quote on both sides. -/
structure DocLine where
  text : Text
  oneLine : '\n' ∉ text
  opensNone : opensBlockComment text = false
  unquoted : ∀ left right, text = left ++ ("..." ++ right) → '\x27' ∈ left → '\x27' ∉ right

namespace DocLine

variable (line : DocLine)

def written : Text :=
  '%' :: line.text

def commentLine : CommentLine :=
  ⟨[], line.written, ⟨⟨.whitespace, ['\n']⟩, rfl⟩⟩

theorem lineFeed_not_mem_written : '\n' ∉ line.written :=
  not_mem_cons_of_ne_of_not_mem (by decide) line.oneLine

theorem dropEllipsisInQuotes_written : dropEllipsisInQuotes line.written = line.written := by
  rcases dropEllipsisInQuotes_cases line.written with same |
    ⟨left, right, split, _, inLeft, inRight⟩
  · exact same
  · cases left with
    | nil => exact absurd inLeft not_mem_nil
    | cons c left =>
      obtain ⟨rfl, isText⟩ := List.cons.inj split
      have quoted : '\x27' ∈ left := by simpa using inLeft
      exact absurd inRight (line.unquoted left right isText quoted)

end DocLine

section

theorem prepareLines_nil : prepareLines [[]] = [] := by
  rw [prepareLines, addParentheses]
  exact parenthesizeFrom.eq_1 true

theorem prepareLines_nil_cons (next : Text) (later : List Text) :
    prepareLines ([] :: next :: later) = '\n' :: prepareLines (next :: later) :=
  parenthesizeFrom_cons fun _ => assignedSignature?_lineFeed _

theorem DocLine.prepareLines_written (line : DocLine) (later : List Text) :
    prepareLines (line.written :: later) = line.written ++ prepareLines ([] :: later) := by
  have kept := line.dropEllipsisInQuotes_written
  have prepared := @prepareLines_barrier '%' [] line.text (by decide) line.oneLine
    (forall_mem_nil _) (by decide) [] later
  rw [nil_append, nil_append, nil_append, prepareLines_nil, nil_append]
    at prepared
  rw [DocLine.written] at kept ⊢
  rw [prepared, kept]

def docText (lines : List DocLine) : Text :=
  Text.joinWith ['\n'] (lines.map DocLine.written)

variable (first : DocLine) (others : List DocLine)

theorem docText_cons_cons (next : DocLine) (others : List DocLine) :
    docText (first :: next :: others) = first.written ++ '\n' :: docText (next :: others) := by
  rw [docText, map_cons, map_cons, Text.joinWith_cons_cons, append_assoc]
  rfl

theorem docText_singleton (line : DocLine) : docText [line] = line.written :=
  Text.joinWith_singleton _ _

theorem prepareLines_docLines (later : List Text) :
    prepareLines ((first :: others).map DocLine.written ++ later) =
      docText (first :: others) ++ prepareLines ([] :: later) := by
  induction others generalizing first with
  | nil =>
    rw [docText_singleton]
    exact first.prepareLines_written later
  | cons next others ih =>
    have rest := ih next
    rw [map_cons, cons_append] at rest
    rw [map_cons, map_cons, cons_append, cons_append,
      DocLine.prepareLines_written, prepareLines_nil_cons, rest, docText_cons_cons]
    simp

/-- Nothing, or a new line that is no comment line. -/
inductive FollowsDoc : Text → Prop where
  | nothing : FollowsDoc []
  | below {rest : Text} (ends : EndsComments rest) : FollowsDoc ('\n' :: rest)

theorem splitOn_docText :
    (docText (first :: others)).splitOn '\n' = (first :: others).map DocLine.written := by
  apply Text.splitOn_joinWith
  intro piece isPiece
  obtain ⟨line, _, rfl⟩ := mem_map.mp
    (show piece ∈ (first :: others).map DocLine.written from isPiece)
  exact line.lineFeed_not_mem_written

private theorem splitOn_docText_append (rest : Text) :
    (docText (first :: others) ++ '\n' :: rest).splitOn '\n' =
      (first :: others).map DocLine.written ++ rest.splitOn '\n' := by
  induction others generalizing first with
  | nil =>
    rw [docText_singleton, Text.splitOn_append_cons first.lineFeed_not_mem_written]
    rfl
  | cons next others ih =>
    rw [docText_cons_cons, append_assoc, cons_append,
      Text.splitOn_append_cons first.lineFeed_not_mem_written, ih]
    rfl

theorem FollowsDoc.exists_prepared {tail : Text} (follows : FollowsDoc tail) (first : DocLine)
    (others : List DocLine) :
    ∃ prepared, FollowsDoc prepared ∧
      parenthesizeFrom true (joinContinuedLines (docText (first :: others) ++ tail)) =
        docText (first :: others) ++ prepared := by
  cases follows with
  | nothing =>
    refine ⟨[], .nothing, ?_⟩
    have lines := prepareLines_docLines first others []
    rw [append_nil, prepareLines_nil, append_nil, ← splitOn_docText] at lines
    rw [append_nil]
    exact lines
  | @below rest ends =>
    refine ⟨_, .below (ends.joinContinuedLines.parenthesizeFrom true), ?_⟩
    obtain ⟨next, later, split⟩ := Text.exists_splitOn_eq_cons '\n' rest
    have lines := prepareLines_docLines first others (rest.splitOn '\n')
    rw [← splitOn_docText_append, split, prepareLines_nil_cons, ← split] at lines
    exact lines

private theorem getLast?_append_docText (front : Text) (first : DocLine) (others : List DocLine) :
    ∀ c ∈ (front ++ docText (first :: others)).getLast?, (c == '\n') = false := by
  obtain ⟨init, last, shape⟩ :=
    (eq_nil_or_concat (first :: others)).resolve_left (cons_ne_nil first others)
  have ends : docText (first :: others) =
      (init.map DocLine.written).flatMap (· ++ ['\n']) ++ last.written := by
    rw [shape, concat_eq_append, docText, map_append, map_singleton, Text.joinWith_append_singleton]
  intro c isLast
  rw [ends, ← append_assoc, getLast?_append] at isLast
  rcases Option.or_eq_some_iff.mp isLast with inLine | ⟨noLine, _⟩
  · simpa using fun same : c = '\n' =>
      last.lineFeed_not_mem_written (same ▸ mem_of_getLast? inLine)
  · exact absurd (getLast?_eq_none_iff.mp noLine) (cons_ne_nil _ _)

theorem FollowsDoc.exists_normalizeCode {tail : Text} (follows : FollowsDoc tail)
    (line : SignatureLine) (first : DocLine) (others : List DocLine)
    (noReturn : '\r' ∉ docText (first :: others)) :
    ∃ rest, EndsComments rest ∧
      normalizeCode (line.text ++ '\n' :: (docText (first :: others) ++ tail)) =
        line.text ++ '\n' :: (docText (first :: others) ++ '\n' :: rest) := by
  have below : ∃ rest, EndsComments rest ∧
      Text.trimRight (· == '\n') (unixNewlines tail) ++ ['\n'] = '\n' :: rest := by
    cases follows with
    | nothing => exact ⟨[], endsComments_nil, rfl⟩
    | below ends =>
      obtain ⟨rest, trimmed, restEnds⟩ := ends.unixNewlines.exists_trimRight
      exact ⟨rest, restEnds, by rw [unixNewlines_cons (by decide), trimmed]⟩
  obtain ⟨rest, ends, trimmed⟩ := below
  refine ⟨rest, ends, ?_⟩
  obtain ⟨front, shape⟩ : ∃ front, line.text = 'f' :: front := ⟨_, rfl⟩
  have kept := getLast?_append_docText ('f' :: (front ++ ['\n'])) first others
  have plain : '\r' ∉ 'f' :: (front ++ ['\n']) ++ docText (first :: others) := by
    have inLine : '\r' ∉ 'f' :: front := shape ▸ line.not_mem_text (by decide)
    intro member
    rcases mem_append.mp member with inFront | inDoc
    · rw [← cons_append] at inFront
      rcases mem_append.mp inFront with inText | isLineFeed
      · exact inLine inText
      · exact absurd isLineFeed (by decide)
    · exact noReturn inDoc
  have normalized := normalizeCode_append (by decide) (by decide) plain kept tail
  rw [trimmed] at normalized
  rw [shape]
  simpa using normalized

end

section

theorem exists_lexFrom_docLines (lines : List DocLine) (before : Option Char) (rest : Text) :
    ∃ last, lexFrom .code before (lines.flatMap (fun line => line.written ++ ['\n']) ++ rest) =
      lines.flatMap (fun line => line.commentLine.tokens) ++ lexFrom .code last rest := by
  induction lines generalizing before with
  | nil => exact ⟨before, rfl⟩
  | cons line lines ih =>
    obtain ⟨last, later⟩ := ih (some '\n')
    refine ⟨last, ?_⟩
    have split : (line :: lines).flatMap (fun line => line.written ++ ['\n']) ++ rest =
        '%' :: (line.text ++ '\n' ::
          (lines.flatMap (fun line => line.written ++ ['\n']) ++ rest)) := by
      simp [DocLine.written]
    rw [split, lexFrom_commentLine line.oneLine line.opensNone, later]
    rfl

theorem docText_append (first : DocLine) (others : List DocLine) (rest : Text) :
    docText (first :: others) ++ '\n' :: rest =
      (first :: others).flatMap (fun line => line.written ++ ['\n']) ++ rest := by
  induction others generalizing first with
  | nil => simp [docText_singleton]
  | cons next others ih =>
    rw [docText_cons_cons, append_assoc, cons_append, ih]
    simp

variable {rest : List Token}

private theorem not_isComment_skipIndentTokens {first : Token}
    (uncommented : ∀ token ∈ ((first :: rest).dropWhile Token.isIndent).head?,
      token.isComment = false) : (skipIndentTokens first rest).1.isComment = false := by
  induction rest generalizing first with
  | nil =>
    rw [skipIndentTokens]
    by_cases indent : first.isIndent
    · apply Token.not_isComment_of_isFiller
      simp [Token.isFiller, indent]
    · exact uncommented first (by simp [indent])
  | cons next rest ih =>
    by_cases indent : first.isIndent
    · rw [skipIndentTokens, if_pos indent]
      rw [dropWhile_cons_of_pos indent] at uncommented
      exact ih uncommented
    · rw [skipIndentTokens, if_neg indent]
      exact uncommented first (by rw [dropWhile_cons_of_neg indent]; rfl)

theorem text_readCommentBlock_lines (line : CommentLine) (lines : List CommentLine)
    (uncommented : ∀ token ∈ (rest.dropWhile Token.isIndent).head?, token.isComment = false) :
    (readCommentBlock ⟨.comment, line.comment⟩
      (line.lineEnd.val :: (lines.flatMap CommentLine.tokens ++ rest))).text =
      (line :: lines).flatMap CommentLine.text := by
  induction lines generalizing line with
  | nil =>
    rw [readCommentBlock]
    cases rest with
    | nil => simp [Token.isComment, Token.commentText, line.lineEnd.property, CommentLine.text]
    | cons first rest =>
      have ending := @readCommentBlock_of_not_isComment (skipIndentTokens first rest).2 _
        (not_isComment_skipIndentTokens uncommented)
      simp [Token.isComment, Token.commentText, line.lineEnd.property, CommentLine.text, ending]
  | cons next lines ih =>
    rw [flatMap_cons, append_assoc, readCommentBlock_line, ih next]
    rfl

theorem docstring_readBody (definition : FunctionDef) (notices : List Notice) (first : DocLine)
    (others : List DocLine) (gap : Text)
    (uncommented : ∀ token ∈ (rest.dropWhile Token.isIndent).head?, token.isComment = false) :
    (FunctionDef.readBody definition notices (⟨.whitespace, gap⟩ :: ((first :: others).flatMap
      (fun line => line.commentLine.tokens) ++ rest))).definition.docstring =
      (first :: others).flatMap fun line => line.written.dropWhile (· == '%') ++ ['\n'] := by
  have block := text_readCommentBlock_lines first.commentLine
    (others.map DocLine.commentLine) uncommented
  rw [flatMap_map, flatMap_cons, flatMap_map] at block
  have skipped : FunctionDef.skipBlankTokens (⟨.whitespace, gap⟩ ::
      ((first :: others).flatMap (fun line => line.commentLine.tokens) ++ rest)) =
      ⟨.comment, first.written⟩ :: (first.commentLine.lineEnd.val ::
        (others.flatMap (fun line => line.commentLine.tokens) ++ rest)) :=
    rfl
  rw [FunctionDef.readBody, skipped]
  exact block

end

private theorem SignatureLine.ofCode_docText (line : SignatureLine) (first : DocLine)
    (others : List DocLine) {tail : Text} (follows : FollowsDoc tail)
    (noReturn : '\r' ∉ docText (first :: others)) (name module : Text) :
    ∃ definition notices,
      Definition.ofCode name module (line.text ++ '\n' :: (docText (first :: others) ++ tail)) =
        ⟨.ok (.function definition), notices⟩ ∧
      definition.docstring =
        (first :: others).flatMap fun line => line.written.dropWhile (· == '%') ++ ['\n'] := by
  obtain ⟨prepared, preparedFollows, isPrepared⟩ := follows.exists_prepared first others
  obtain ⟨rest, ends, normalized⟩ := preparedFollows.exists_normalizeCode line first others noReturn
  have noBlanks : docText (first :: others) ++ '\n' :: rest =
      '%' :: (first.text ++
        '\n' :: (others.flatMap (fun line => line.written ++ ['\n']) ++ rest)) := by
    simp [docText_append, DocLine.written]
  obtain ⟨last, comments⟩ := exists_lexFrom_docLines (first :: others) (some '\n') rest
  have below : tokensBelow (docText (first :: others) ++ '\n' :: rest) =
      (first :: others).flatMap (fun line => line.commentLine.tokens) ++
        lexFrom .code last rest := by
    rw [← comments, ← docText_append, noBlanks]
    rfl
  have noEquals : ∀ c ∈ ((docText (first :: others) ++ '\n' :: rest).dropWhile isBlank).head?,
      c ≠ '=' := by
    rw [noBlanks, dropWhile_cons_of_neg (by decide)]
    simp
  have blanks : (docText (first :: others) ++ '\n' :: rest).takeWhile isBlank = [] := by
    rw [noBlanks]
    rfl
  have tokens : lex (prepareCode (line.text ++ '\n' :: (docText (first :: others) ++ tail))) =
      ⟨.keyword, "function"⟩ :: (line.head.tokens ++ ⟨.whitespace, ['\n']⟩ ::
        ((first :: others).flatMap (fun line => line.commentLine.tokens) ++
          lexFrom .code last rest)) := by
    rw [lex, line.prepareCode_text, isPrepared, normalized, line.lexFrom_text noEquals, blanks,
      below]
  have read := line.head.read_tokens name module ⟨.keyword, "function"⟩ (⟨.whitespace, ['\n']⟩ ::
    ((first :: others).flatMap (fun line => line.commentLine.tokens) ++ lexFrom .code last rest))
  have docstring := congrArg (fun reading => reading.definition.docstring) read
  refine ⟨_, _, Definition.ofCode_of_read tokens rfl rfl, ?_⟩
  exact docstring.trans
    (docstring_readBody _ _ first others ['\n'] (ends.endsCommentBlock.lexFrom last))

/-- What stands in comments and in quotes survives the preparation of the code, but for ellipses
between quotes; so the comment lines below a signature are the docstring of its function. -/
theorem comments_and_quotes_survive :
    (∀ (code : Text) (earlier : List Text) (front : Text) (sign : Char) (rest : Text)
      (later : List Text),
      (dropHeader code).splitOn '\n' = earlier ++ (front ++ sign :: rest) :: later →
      isBarrier sign → (∀ c ∈ front, isBarrier c = false) → ¬ ("..." : Text) <:+: front →
      ∃ kept, KeepsParts (sign :: rest) kept ∧
        prepareCode code =
          prepareLines (earlier ++ [front]) ++ (kept ++ prepareLines ([] :: later))) ∧
    ∀ (line : SignatureLine) (first : DocLine) (others : List DocLine) (tail : Text)
      (name path : Text) (encodingName : Option Text) (encoding : Encoding) (bytes : List UInt8),
      FollowsDoc tail → Definition.encodingOf? encodingName = some encoding →
      unixNewlines (encoding.decode bytes) =
        line.text ++ '\n' :: (docText (first :: others) ++ tail) →
      ∃ definition notices,
        Definition.ofBytes name path encodingName bytes =
          ⟨.ok (.function definition), notices⟩ ∧
        definition.docstring =
          (first :: others).flatMap fun doc => doc.written.dropWhile (· == '%') ++ ['\n'] := by
  constructor
  · intro code earlier front sign rest later lines barrier plain notContinued
    refine ⟨_, keepsParts_dropEllipsisInQuotes (sign :: rest), ?_⟩
    have inLine : '\n' ∉ front ++ sign :: rest := by
      apply Text.not_mem_of_mem_splitOn
      rw [lines]
      exact List.mem_append_right _ List.mem_cons_self
    have oneLine : '\n' ∉ rest := fun member =>
      inLine (List.mem_append_right _ (List.mem_cons_of_mem _ member))
    rw [prepareCode_eq_prepareLines, lines, prepareLines_barrier barrier oneLine plain notContinued]
  · intro line first others tail name path encodingName encoding bytes follows known decoded
    have noReturn : '\r' ∉ docText (first :: others) := by
      have plain := return_not_mem_unixNewlines (encoding.decode bytes)
      rw [decoded] at plain
      intro member
      apply plain
      simp [member]
    rw [Definition.ofBytes, known]
    dsimp only
    rw [decoded]
    exact line.ofCode_docText first others follows noReturn name _

def quotedAndCommented : Text :=
  "y = 1;\nx = 'a'; % on ... and on"

def headingLine : DocLine where
  text := "% Adds ... up"
  oneLine := by decide
  opensNone := rfl
  unquoted left right same inLeft := by
    have quoted : '\x27' ∈ ("% Adds ... up" : Text) := same ▸ mem_append_left _ inLeft
    exact absurd quoted (by decide)

def apostropheLine : DocLine where
  text := " the caller's numbers"
  oneLine := by decide
  opensNone := rfl
  unquoted left right same _ := by
    have dotted : '.' ∈ (" the caller's numbers" : Text) :=
      same ▸ mem_append_right _ mem_cons_self
    exact absurd dotted (by decide)

def addSignature : SignatureLine where
  outputs := []
  name := ⟨"add", rfl⟩
  arguments := [⟨"x", rfl⟩]

def addBytes : List UInt8 :=
  ("function add(x)\r\n%% Adds ... up\n% the caller's numbers\n  x = x + 1;" : Text).map
    fun c => c.toNat.toUInt8

theorem comments_and_quotes_survive_add :
    ("% on ... and on" : Text) <:+: prepareCode quotedAndCommented ∧
    ∃ definition notices,
      Definition.ofBytes "add" "lib" none addBytes = ⟨.ok (.function definition), notices⟩ ∧
      definition.docstring = " Adds ... up\n the caller's numbers\n" := by
  constructor
  · have unquoted : ∀ left right, ("% on ... and on" : Text) = left ++ ("..." ++ right) →
        '\x27' ∈ ("'a'; " : Text) ++ left → '\x27' ∉ right ++ [] := by
      intro left right same _ inRight
      rw [List.append_nil] at inRight
      have quoted : '\x27' ∈ ("% on ... and on" : Text) :=
        same ▸ List.mem_append_right _ (List.mem_append_right _ inRight)
      exact absurd quoted (by decide)
    obtain ⟨kept, keeps, prepared⟩ := comments_and_quotes_survive.1 quotedAndCommented ["y = 1;"]
      "x = " '\x27' "a'; % on ... and on" [] (by decide +kernel) rfl (by simp [isBarrier])
      (by decide)
    obtain ⟨start, rest, isKept, _, _⟩ := keeps.parts "'a'; " "% on ... and on" [] rfl
      (.comment " on ... and on") unquoted
    rw [prepared, isKept]
    exact ⟨prepareLines ["y = 1;", "x = "] ++ start, rest ++ prepareLines [[]], by simp⟩
  · have follows : FollowsDoc "\n  x = x + 1;" :=
      @FollowsDoc.below "  x = x + 1;" (by simp [EndsComments, isIndent])
    have known : Definition.encodingOf? none = some .utf8 := rfl
    have decoded : unixNewlines (Encoding.decode .utf8 addBytes) = addSignature.text ++ '\n' ::
        (docText [headingLine, apostropheLine] ++ "\n  x = x + 1;") := by decide +kernel
    exact comments_and_quotes_survive.2 addSignature headingLine [apostropheLine] _ "add" "lib" none
      .utf8 addBytes follows known decoded

/-- Text in quotes loses an ellipsis when continued lines are joined. -/
theorem quoted_ellipsis_lost :
    prepareCode "'a...b'" = "'ab'" ∧ ¬ ("'a...b'" : Text) <:+: prepareCode "'a...b'" := by
  have lines : (dropHeader "'a...b'").splitOn '\n' = [("'a...b'" : Text)] := by decide +kernel
  have prepared : prepareCode "'a...b'" = "'ab'" := by
    rw [prepareCode_eq_prepareLines, lines]
    have line := @prepareLines_barrier '\x27' [] "a...b'" (by decide) (by decide)
      (List.forall_mem_nil _) (by decide) [] []
    rw [List.nil_append, List.nil_append, List.nil_append, prepareLines_nil, List.append_nil]
      at line
    exact line
  rw [prepared]
  exact ⟨rfl, by decide⟩

end MatlabDocs
