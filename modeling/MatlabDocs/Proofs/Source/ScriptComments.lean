import MatlabDocs.Proofs.Class.Reader
import MatlabDocs.Proofs.Function.DocumentedFunction
import MatlabDocs.Proofs.Source.CommentHeader
import MatlabDocs.Proofs.Token.LineTokens

/-!
# The comments of scripts

A script is documented by its first block of comment lines: their texts, without the indentation
and the comment signs in front.  To such a block belong also lines that start with an ellipsis.
-/

namespace MatlabDocs

open List LexMode LexRule ScriptDef

/-! ### Lines above the block -/

/-- The word stands in the line, with no other word character beside it. -/
def HoldsWord (word line : Text) : Prop :=
  ∃ front back, line = front ++ (word ++ back) ∧ (∀ c ∈ front.getLast?, isWord c = false) ∧
    ∀ c ∈ back.head?, isWord c = false

theorem HoldsWord.cons {word line : Text} (holds : HoldsWord word line) {c : Char}
    (notWord : isWord c = false) : HoldsWord word (c :: line) := by
  obtain ⟨front, back, rfl, ahead, behind⟩ := holds
  refine ⟨c :: front, back, rfl, ?_, behind⟩
  cases last : front.getLast? with
  | none => simpa [getLast?_cons, last] using notWord
  | some d => simpa [getLast?_cons, last] using ahead d last

/-- A line above the block starts no comment, no quoted text and no function. -/
structure IsAbove (line : Text) : Prop extends IsPlain line where
  noFunction : ¬ HoldsWord "function" line

/-- The text starts with the keyword of a function, behind blanks and blank lines. -/
def StartsFunction (text : Text) : Prop :=
  ∃ next more, text.dropWhile isBlank = ("function" : Text) ++ next :: more ∧
    (isBlank next ∨ next = '[')

theorem functionKeyword_eq_none_of_not_startsFunction {before : Option Char} {text : Text}
    (absent : ¬ StartsFunction text) : functionKeyword before text = none := by
  unfold functionKeyword
  dsimp only
  split
  · rename_i next more shape
    have starts := Text.eq_append_of_afterStart? shape
    rw [blankLength, drop_length_takeWhile] at starts
    have other : (isBlank next || next == '[') = false := by
      rw [Bool.eq_false_iff]
      exact fun ends => absent ⟨next, more, starts, by simpa using ends⟩
    simp [other]
  · rfl

theorem not_startsFunction_of_head? {text : Text}
    (other : (text.dropWhile isBlank).head? ≠ some 'f') : ¬ StartsFunction text := by
  rintro ⟨next, more, shape, _⟩
  exact other (by rw [shape]; rfl)

private theorem not_isWord_of_isBlank {c : Char} (blank : isBlank c) : isWord c = false := by
  rw [Bool.eq_false_iff]
  intro word
  rw [not_isBlank_of_isWord word] at blank
  cases blank

/-- The keyword stands in the first line, or behind it. -/
private theorem holdsWord_of_startsFunction {line rest : Text}
    (starts : StartsFunction (line ++ '\n' :: rest)) :
    HoldsWord "function" line ∨ StartsFunction rest := by
  obtain ⟨next, more, shape, ends⟩ := starts
  rw [dropWhile_append] at shape
  split at shape
  · rw [dropWhile_cons_of_pos (by decide)] at shape
    exact .inr ⟨next, more, shape, ends⟩
  · have split := @takeWhile_append_dropWhile _ isBlank line
    have ahead : ∀ c ∈ (line.takeWhile isBlank).getLast?, isWord c = false := fun c isLast =>
      not_isWord_of_isBlank (all_eq_true.mp all_takeWhile c (mem_of_getLast? isLast))
    have notWord : isWord next = false := by
      rcases ends with blank | rfl
      · exact not_isWord_of_isBlank blank
      · decide
    refine .inl ?_
    rcases append_eq_append_iff.mp shape with ⟨back, isFunction, isRest⟩ | ⟨back, isLine, isMore⟩
    · cases back with
      | nil =>
        rw [append_nil] at isFunction
        exact ⟨_, [], by rw [append_nil, isFunction, split], ahead, nofun⟩
      | cons c back =>
        obtain ⟨rfl, _⟩ := cons.inj isRest
        have inWord : '\n' ∈ ("function" : Text) := by simp [isFunction]
        exact absurd inWord (by decide)
    · refine ⟨_, back, by rw [← isLine, split], ahead, fun c first => ?_⟩
      have isNext : (next :: more).head? = some c := by rw [isMore, head?_append, first]; rfl
      obtain rfl := Option.some.inj isNext
      exact notWord

private theorem not_startsFunction_lines {front : List Text} (above : ∀ line ∈ front, IsAbove line)
    {rest : Text} (absent : ¬ StartsFunction rest) :
    ¬ StartsFunction (front.flatMap (· ++ ['\n']) ++ rest) := by
  induction front with
  | nil => exact absent
  | cons line front ih =>
    obtain ⟨isAbove, others⟩ := forall_mem_cons.mp above
    rw [flatMap_cons, append_assoc, append_assoc, singleton_append]
    intro starts
    rcases holdsWord_of_startsFunction starts with holds | later
    · exact isAbove.noFunction holds
    · exact ih others later

theorem firstComment_lines {front : List Text} (above : ∀ line ∈ front, IsAbove line)
    {rest : Text} (absent : ¬ StartsFunction rest) (before : Option Char) :
    ∃ last, firstComment (lexFrom .code before (front.flatMap (· ++ ['\n']) ++ rest)) =
      firstComment (lexFrom .code last rest) := by
  induction front generalizing before with
  | nil => exact ⟨before, rfl⟩
  | cons line front ih =>
    obtain ⟨isAbove, others⟩ := forall_mem_cons.mp above
    have noKeyword := not_startsFunction_lines above absent
    obtain ⟨last, later⟩ := ih others (some '\n')
    refine ⟨last, ?_⟩
    rw [flatMap_cons, append_assoc, append_assoc, singleton_append] at noKeyword ⊢
    rw [isAbove.firstComment_lexFrom (functionKeyword_eq_none_of_not_startsFunction noKeyword),
      later]

/-! ### Lines of the block -/

/-- A line of a comment block: behind its indentation it starts with a comment sign, or with an
ellipsis. -/
structure BlockLine where
  indent : List IndentToken
  text : Text
  oneLine : '\n' ∉ text
  starts : (∃ rest, text = '%' :: rest ∧ opensBlockComment rest = false) ∨ ("..." : Text) <+: text

theorem exists_lexFrom_indentText (indent : List IndentToken) {before : Option Char} {rest : Text}
    (noKeyword : functionKeyword before (indentText indent ++ rest) = none) :
    ∃ last, lexFrom .code before (indentText indent ++ rest) =
      indent.unattach ++ lexFrom .code last rest := by
  cases indent with
  | nil => exact ⟨before, rfl⟩
  | cons blank indent =>
    obtain ⟨token, isIndent⟩ := blank
    rcases Token.isIndent_iff.mp isIndent with rfl | rfl
    · exact ⟨_, (lexFrom_indent_of_eq_none (by decide) noKeyword).trans
        (congrArg (_ :: ·) (lexedAs_indent (by decide) indent rest))⟩
    · exact ⟨_, (lexFrom_indent_of_eq_none (by decide) noKeyword).trans
        (congrArg (_ :: ·) (lexedAs_indent (by decide) indent rest))⟩

namespace BlockLine

def written (line : BlockLine) : Text :=
  indentText line.indent ++ line.text

/-- What the line adds to a docstring. -/
def shown (line : BlockLine) : Text :=
  line.text.dropWhile (· == '%') ++ ['\n']

def commentLine (line : BlockLine) : CommentLine :=
  ⟨line.indent, line.text, .feed⟩

variable (line : BlockLine) (before : Option Char) (rest : Text)

theorem exists_sign : ∃ c rest, line.text = c :: rest ∧ (c = '%' ∨ c = '.') := by
  rcases line.starts with ⟨rest, isText, _⟩ | ⟨rest, isText⟩
  · exact ⟨'%', rest, isText, .inl rfl⟩
  · exact ⟨'.', '.' :: '.' :: rest, isText.symm, .inr rfl⟩

theorem not_startsFunction : ¬ StartsFunction (line.written ++ rest) := by
  have blanks : ∀ c ∈ indentText line.indent, isBlank c :=
    fun c member => isBlank_of_isIndent (isIndent_of_mem_indentText line.indent c member)
  refine not_startsFunction_of_head? ?_
  rw [written, append_assoc, dropWhile_append_of_pos blanks]
  obtain ⟨c, more, isText, rfl | rfl⟩ := line.exists_sign
  · simp [isText, show isBlank '%' = false by decide]
  · simp [isText, show isBlank '.' = false by decide]

theorem head?_written_append :
    ∃ c, (line.written ++ rest).head? = some c ∧ (isIndent c ∨ c = '%' ∨ c = '.') := by
  obtain ⟨sign, more, isText, isSign⟩ := line.exists_sign
  cases blanks : indentText line.indent with
  | nil => exact ⟨sign, by rw [written, blanks, isText]; rfl, .inr isSign⟩
  | cons c others =>
    refine ⟨c, by rw [written, blanks]; rfl, .inl ?_⟩
    exact isIndent_of_mem_indentText line.indent c (by simp [blanks])

theorem lexFrom_text :
    lexFrom .code before (line.text ++ '\n' :: rest) =
      ⟨.comment, line.text⟩ :: ⟨.whitespace, ['\n']⟩ :: lexFrom .code (some '\n') rest := by
  have oneLine := line.oneLine
  rcases line.starts with ⟨text, isText, opensNone⟩ | ⟨text, isText⟩
  · rw [isText] at oneLine ⊢
    exact lexFrom_commentLine (not_mem_of_not_mem_cons oneLine) opensNone
  · rw [← isText] at oneLine ⊢
    have inLine : '\n' ∉ text := fun member => oneLine (mem_append_right _ member)
    have dots : ellipsis before (("..." : Text) ++ (text ++ '\n' :: rest)) =
        some (.single .comment (2 + text.length) .code) := by
      show some (LexStep.single _ (2 + lineLength (text ++ '\n' :: rest)) _) = _
      rw [lineLength_append inLine]
    have noKeyword : functionKeyword before (("..." : Text) ++ (text ++ '\n' :: rest)) = none :=
      functionKeyword_eq_none_of_not_startsFunction (not_startsFunction_of_head? nofun)
    refine lexFrom_comment oneLine (cons_ne_nil _ _) ?_
    have length : (("..." : Text) ++ text).length - 1 = 2 + text.length := by
      rw [length_append]
      exact Nat.add_right_comm 2 1 _ ▸ rfl
    rw [append_assoc, length]
    simp only [rules, findSome?_cons, noKeyword, dots]
    rfl

theorem lexFrom_written :
    lexFrom .code before (line.written ++ '\n' :: rest) =
      line.commentLine.tokens ++ lexFrom .code (some '\n') rest := by
  have noKeyword : functionKeyword before (line.written ++ '\n' :: rest) = none :=
    functionKeyword_eq_none_of_not_startsFunction (line.not_startsFunction _)
  rw [written, append_assoc] at noKeyword ⊢
  obtain ⟨last, blanks⟩ := exists_lexFrom_indentText line.indent noKeyword
  rw [blanks, lexFrom_text]
  simp [commentLine, CommentLine.tokens, LineEndToken.feed]

end BlockLine

theorem exists_lexFrom_blockLines (lines : List BlockLine) (before : Option Char) (rest : Text) :
    ∃ last, lexFrom .code before (lines.flatMap (fun line => line.written ++ ['\n']) ++ rest) =
      lines.flatMap (fun line => line.commentLine.tokens) ++ lexFrom .code last rest := by
  induction lines generalizing before with
  | nil => exact ⟨before, rfl⟩
  | cons line lines ih =>
    obtain ⟨last, later⟩ := ih (some '\n')
    refine ⟨last, ?_⟩
    rw [flatMap_cons, append_assoc, append_assoc, singleton_append, line.lexFrom_written, later,
      flatMap_cons, append_assoc]

/-- A block that nothing continues is the docstring. -/
theorem firstComment_blockLines (first : BlockLine) (others : List BlockLine) {rest : Text}
    (ends : EndsCommentBlock rest) (before : Option Char) :
    firstComment (lexFrom .code before
      ((first :: others).flatMap (fun line => line.written ++ ['\n']) ++ rest)) =
      (first :: others).flatMap BlockLine.shown := by
  obtain ⟨last, tokens⟩ := exists_lexFrom_blockLines (first :: others) before rest
  have block := text_readCommentBlock_lines first.commentLine (others.map BlockLine.commentLine)
    (ends.lexFrom last)
  have uncommented : ∀ token ∈ first.indent.unattach, token.isComment = false := by
    intro token member
    apply Token.not_isComment_of_isFiller
    simp [Token.isFiller, isIndent_of_mem_unattach first.indent token member]
  rw [flatMap_map, flatMap_cons, flatMap_map] at block
  rw [tokens, flatMap_cons, BlockLine.commentLine, CommentLine.tokens, append_assoc, append_assoc,
    firstComment_append uncommented]
  exact block

/-! ### The whole code -/

theorem EndsCommentBlock.exists_trimRight {text : Text} (ends : EndsCommentBlock text) :
    ∃ rest, Text.trimRight (· == '\n') ('\n' :: text) ++ ['\n'] = '\n' :: rest ∧
      EndsCommentBlock rest := by
  obtain ⟨rest, trimmed, rfl | ⟨kept, back, rfl, rfl⟩⟩ := exists_trimRight_lineFeed text
  · exact ⟨[], trimmed, nofun, nofun⟩
  · refine ⟨_, trimmed, ?_⟩
    cases visible : kept.dropWhile isIndent with
    | nil =>
      have isLineFeed : (kept ++ ['\n']).dropWhile isIndent = ['\n'] := by
        rw [dropWhile_append, visible]
        rfl
      exact ⟨by simp [isLineFeed], by simp [isLineFeed]⟩
    | cons c more =>
      have starts : ∀ rest, (kept ++ rest).dropWhile isIndent = c :: more ++ rest := by
        intro rest
        rw [dropWhile_append, visible]
        rfl
      obtain ⟨notComment, notEllipsis⟩ := ends
      rw [starts] at notComment notEllipsis
      constructor
      · rw [starts]
        exact notComment
      · rw [starts, ← isPrefixOf_iff_prefix, isPrefixOf_append_stop (by decide),
          isPrefixOf_iff_prefix]
        exact fun isPrefix => notEllipsis (isPrefix.trans (prefix_append _ _))

section

variable {front : List Text} {rest : Text}

theorem withoutMark_of_head?_ne {text : Text} (notMark : text.head? ≠ some (Char.ofNat 0xFEFF)) :
    withoutMark text = text := by
  cases text with
  | nil => rfl
  | cons c text => rw [withoutMark_cons, if_neg (by simpa using notMark)]

theorem exists_withoutMark (above : ∀ line ∈ front, IsAbove line)
    (notMark : rest.head? ≠ some (Char.ofNat 0xFEFF)) :
    ∃ left : List Text, (∀ line ∈ left, IsAbove line) ∧
      withoutMark (front.flatMap (· ++ ['\n']) ++ rest) = left.flatMap (· ++ ['\n']) ++ rest := by
  cases front with
  | nil => exact ⟨[], by simp, withoutMark_of_head?_ne notMark⟩
  | cons line front =>
    cases line with
    | nil => exact ⟨[] :: front, above, withoutMark_of_head?_ne (by simp)⟩
    | cons c line =>
      by_cases mark : c = Char.ofNat 0xFEFF
      · subst mark
        obtain ⟨isAbove, others⟩ := forall_mem_cons.mp above
        refine ⟨line :: front, forall_mem_cons.mpr ⟨⟨isAbove.of_suffix (suffix_cons _ _), ?_⟩,
          others⟩, ?_⟩
        · exact fun holds => isAbove.noFunction (holds.cons (by decide +kernel))
        · exact withoutMark_cons _ _
      · exact ⟨_, above, withoutMark_of_head?_ne (by simpa using mark)⟩

theorem exists_dropWhile_lineFeed (above : ∀ line ∈ front, IsAbove line)
    (notLineFeed : rest.head? ≠ some '\n') :
    ∃ left : List Text, (∀ line ∈ left, IsAbove line) ∧
      (front.flatMap (· ++ ['\n']) ++ rest).dropWhile (· == '\n') =
        left.flatMap (· ++ ['\n']) ++ rest := by
  induction front with
  | nil =>
    refine ⟨[], by simp, ?_⟩
    cases rest with
    | nil => rfl
    | cons c rest => exact dropWhile_cons_of_neg (by simpa using notLineFeed)
  | cons line front ih =>
    obtain ⟨isAbove, others⟩ := forall_mem_cons.mp above
    cases line with
    | nil => exact ih others
    | cons c line =>
      have inLine : c ≠ '\n' := fun same => isAbove.oneLine (same ▸ mem_cons_self)
      exact ⟨_, above, dropWhile_cons_of_neg (by simpa using inLine)⟩

end

/-- The last line of a block ends in a character of its own. -/
theorem exists_blockLines (first : BlockLine) (others : List BlockLine) :
    ∃ (block : Text) (last : Char), last ≠ '\n' ∧
      (first :: others).flatMap (fun line => line.written ++ ['\n']) = block ++ [last, '\n'] := by
  obtain ⟨init, line, shape⟩ :=
    (eq_nil_or_concat (first :: others)).resolve_left (cons_ne_nil first others)
  obtain ⟨c, more, isText, _⟩ := line.exists_sign
  obtain ⟨text, last, isLine⟩ := (eq_nil_or_concat line.text).resolve_left (by simp [isText])
  refine ⟨init.flatMap (fun line => line.written ++ ['\n']) ++ (indentText line.indent ++ text),
    last, ?_, ?_⟩
  · rintro rfl
    exact line.oneLine (by simp [isLine])
  · simp [shape, BlockLine.written, isLine]

private theorem normalizeCode_of_not_mem {code : Text} (noReturn : '\r' ∉ code) :
    normalizeCode code = Text.trimRight (· == '\n')
      ((withoutMark (code ++ ['\n'])).dropWhile (· == '\n')) ++ ['\n'] := by
  have unmarked : withoutMark (code ++ ['\n']) = withoutMark code ++ ['\n'] ∧
      '\r' ∉ withoutMark code := by
    cases code with
    | nil => exact ⟨rfl, noReturn⟩
    | cons c code =>
      rw [cons_append, withoutMark_cons, withoutMark_cons]
      split
      · exact ⟨rfl, not_mem_of_not_mem_cons noReturn⟩
      · exact ⟨rfl, noReturn⟩
  have plain := unixNewlines_append unmarked.2 []
  rw [append_nil, unixNewlines, append_nil] at plain
  rw [normalizeCode_eq, ← unixNewlines_eq_replace, plain, unmarked.1, dropWhile_append, Text.trim]
  split
  · rename_i isEmpty
    rw [isEmpty_iff.mp isEmpty]
    rfl
  · rw [Text.trimRight_append (by simp)]

/-- The docstring of a script is its first block of comment lines. -/
theorem firstComment_lex {front : List Text} (above : ∀ line ∈ front, IsAbove line)
    (first : BlockLine) (others : List BlockLine) {below : Text} (ends : EndsCommentBlock below)
    {code : Text} (noReturn : '\r' ∉ code)
    (isCode : code ++ ['\n'] = front.flatMap (· ++ ['\n']) ++
      ((first :: others).flatMap (fun line => line.written ++ ['\n']) ++ below)) :
    firstComment (lex code) = (first :: others).flatMap BlockLine.shown := by
  obtain ⟨block, last, inLine, isBlock⟩ := exists_blockLines first others
  have other : ∀ {sign : Char}, isIndent sign = false → sign ≠ '%' → sign ≠ '.' →
      ((first :: others).flatMap (fun line => line.written ++ ['\n']) ++ below).head? ≠
        some sign := by
    intro sign notIndent notComment notDot
    rw [flatMap_cons, append_assoc, append_assoc]
    obtain ⟨c, starts, kinds⟩ := first.head?_written_append (['\n'] ++
      (others.flatMap (fun line => line.written ++ ['\n']) ++ below))
    rw [starts]
    rintro ⟨⟩
    simp [notIndent, notComment, notDot] at kinds
  obtain ⟨unmarked, unmarkedAbove, isUnmarked⟩ :=
    exists_withoutMark above (other (by decide) (by decide) (by decide))
  obtain ⟨left, leftAbove, isLeft⟩ :=
    exists_dropWhile_lineFeed unmarkedAbove (other (by decide) (by decide) (by decide))
  obtain ⟨rest, trimmed, restEnds⟩ := ends.exists_trimRight
  have normalized : normalizeCode code = left.flatMap (· ++ ['\n']) ++
      ((first :: others).flatMap (fun line => line.written ++ ['\n']) ++ rest) := by
    have split : ∀ rest, left.flatMap (· ++ ['\n']) ++ (block ++ [last, '\n'] ++ rest) =
        left.flatMap (· ++ ['\n']) ++ (block ++ [last]) ++ '\n' :: rest := by simp
    have kept : ∀ c ∈ (left.flatMap (· ++ ['\n']) ++ (block ++ [last])).getLast?,
        (c == '\n') = false := by
      simpa using inLine
    rw [normalizeCode_of_not_mem noReturn, isCode, isUnmarked, isLeft, isBlock, split,
      Text.trimRight_append_of_getLast? kept, append_assoc, trimmed, split]
  have absent : ¬ StartsFunction ((first :: others).flatMap
      (fun line => line.written ++ ['\n']) ++ rest) := by
    rw [flatMap_cons, append_assoc, append_assoc]
    exact first.not_startsFunction _
  obtain ⟨before, skipped⟩ := firstComment_lines leftAbove absent none
  rw [lex, normalized, skipped, firstComment_blockLines first others restEnds]

private theorem Definition.eq_read_of_script {name module code : Text} {definition : ScriptDef}
    (isScript : (ofCode name module code).result = .ok (.script definition)) :
    definition = ScriptDef.read name module (lex code) := by
  unfold ofCode at isScript
  dsimp only at isScript
  split at isScript
  · split at isScript
    · rename_i first rest tokens isClass
      rw [tokens] at isScript
      cases read : (ClassDef.read name module (first :: rest)).result with
      | error fault => simp [Reading.map, read, Except.map] at isScript
      | ok found => simp [Reading.map, read, Except.map] at isScript
    · split at isScript
      · cases isScript
      · cases isScript
        rfl
  · cases isScript
    rfl

/-- The docstring of a script is its first block of comment lines, if nothing above them starts a
comment, a quoted text or a function.  Each line gives its text without the indentation and without
the comment signs in front; a line that starts with an ellipsis belongs to the block like one that
starts with a comment sign. -/
theorem scripts_documented_by_first_block {front : List Text}
    (above : ∀ line ∈ front, IsAbove line) (first : BlockLine) (others : List BlockLine)
    {below : Text} (ends : EndsCommentBlock below) {name path : Text} {encodingName : Option Text}
    {encoding : Encoding} {bytes : List UInt8} {definition : ScriptDef}
    (known : Definition.encodingOf? encodingName = some encoding)
    (isCode : unixNewlines (encoding.decode bytes) ++ ['\n'] = front.flatMap (· ++ ['\n']) ++
      ((first :: others).flatMap (fun line => line.written ++ ['\n']) ++ below))
    (isScript : (Definition.ofBytes name path encodingName bytes).result =
      .ok (.script definition)) :
    definition.docstring = (first :: others).flatMap BlockLine.shown := by
  rw [Definition.ofBytes, known] at isScript
  rw [Definition.eq_read_of_script isScript]
  exact firstComment_lex above first others ends
    (return_not_mem_unixNewlines (encoding.decode bytes)) isCode

def sumsCode : Text :=
  "total(1)\n%% Sums.\n ... of all\nx = 1;"

def sumsFirst : BlockLine :=
  ⟨[], "%% Sums.".toList, by decide, .inl ⟨_, rfl, by decide⟩⟩

def sumsNext : BlockLine :=
  ⟨[.blank], "... of all".toList, by decide, .inr (by decide)⟩

private theorem isAbove_total : IsAbove "total(1)" where
  signs := by simp
  unbroken broken := absurd (@IsInfix.subset _ _ _ broken '.' (by decide)) (by decide)
  oneLine := by decide
  noFunction := by
    rintro ⟨front, back, isLine, _⟩
    have isLetter : 'f' ∈ ("total(1)" : Text) := by simp [isLine]
    exact absurd isLetter (by decide)

theorem scripts_documented_by_first_block_sums :
    ∃ definition, (Definition.ofBytes "sums" "src" none (bytesOf sumsCode)).result =
        .ok (.script definition) ∧ definition.docstring = " Sums.\n... of all\n".toList := by
  have isScript : (Definition.ofBytes "sums" "src" none (bytesOf sumsCode)).result =
      .ok (.script (ScriptDef.read "sums" "src" (lex sumsCode))) := by decide +kernel
  refine ⟨_, isScript, ?_⟩
  have ends : EndsCommentBlock "x = 1;\n" := ⟨by decide, by decide⟩
  exact scripts_documented_by_first_block (forall_mem_singleton.mpr isAbove_total) sumsFirst
    [sumsNext] ends rfl (by decide +kernel) isScript

/-- An ellipsis at the start of a line is taken for a comment, and continues the block above it. -/
theorem ellipsis_continues_docstring :
    ∃ definition, (Definition.ofBytes "sums" "src" none
      (bytesOf "% Sums.\n... of all\nx = 1;\n")).result = .ok (.script definition) ∧
      definition.docstring = " Sums.\n... of all\n".toList :=
  ⟨ScriptDef.read "sums" "src" (lex "% Sums.\n... of all\nx = 1;\n"), by decide +kernel,
    by decide +kernel⟩

end MatlabDocs
