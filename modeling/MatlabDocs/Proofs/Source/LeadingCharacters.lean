import MatlabDocs.Proofs.Source.CommentHeader

/-!
# Characters in front of the code

A file is a class or a function only if its first token is the keyword and nothing else.  Blanks in
front of the first line of code go into that token or stand in front of it.  A byte-order mark is
left out of the tokens, but neither a header nor a signature that lacks its parentheses is found
behind it.
-/

namespace MatlabDocs

open List Text Definition

def byteOrderMark : Char :=
  Char.ofNat 0xFEFF

def headerOf (text : Text) : Text :=
  text.take (text.length - (dropHeader text).length)

namespace Text

theorem fullLines_cons {c : Char} (notReturn : c ≠ '\r') (rest : Text) :
    fullLines (c :: rest) =
      if isLineBreak c then [c] :: fullLines rest
      else (c :: (fullLines rest).headD []) :: (fullLines rest).tail := by
  rw [fullLines.eq_3 c rest fun _ same _ => notReturn same]
  cases fullLines rest with
  | nil => rfl
  | cons line lines => rfl

private theorem fullLines_ne_nil {c : Char} (notReturn : c ≠ '\r') (rest : Text) :
    fullLines (c :: rest) ≠ [] := by
  rw [fullLines_cons notReturn]
  split
  · exact cons_ne_nil _ _
  · exact cons_ne_nil _ _

theorem fullLines_append_lineFeed {front : Text} (noReturn : '\r' ∉ front) (rest : Text) :
    fullLines (front ++ '\n' :: rest) = fullLines (front ++ ['\n']) ++ fullLines rest := by
  induction front with
  | nil => rfl
  | cons c front ih =>
    obtain ⟨notReturn, others⟩ := ne_and_not_mem_of_not_mem_cons noReturn
    have notEmpty : fullLines (front ++ ['\n']) ≠ [] := by
      cases front with
      | nil => exact fullLines_ne_nil (by decide) []
      | cons d front =>
        exact fullLines_ne_nil (ne_and_not_mem_of_not_mem_cons others).1.symm _
    obtain ⟨line, lines, shape⟩ := exists_cons_of_ne_nil notEmpty
    rw [cons_append, cons_append, fullLines_cons notReturn.symm,
      fullLines_cons notReturn.symm, ih others, shape]
    split
    · rfl
    · rfl

theorem count_le_length_fullLines {text : Text} (noReturn : '\r' ∉ text) :
    text.count '\n' ≤ (fullLines text).length := by
  induction text with
  | nil => exact Nat.zero_le _
  | cons c text ih =>
    obtain ⟨notReturn, others⟩ := ne_and_not_mem_of_not_mem_cons noReturn
    have later := ih others
    rw [fullLines_cons notReturn.symm]
    split
    · have atMost : (c :: text).count '\n' ≤ text.count '\n' + 1 := by
        rw [count_cons]
        split <;> omega
      rw [length_cons]
      omega
    · rename_i notBreak
      have notLineFeed : c ≠ '\n' := by
        rintro rfl
        exact notBreak (by decide)
      rw [count_cons_of_ne notLineFeed, length_cons, length_tail]
      omega

/-- What stands in front of the text behind so many separators: it ends in the last of them. -/
theorem afterSeparators?_spec {separator : Char} {count : Nat} {text rest : Text}
    (found : afterSeparators? separator count text = some rest) :
    ∃ front, text = front ++ rest ∧ front.count separator = count ∧
      (front ≠ [] → ∃ line, front = line ++ [separator]) ∧
      ∀ other, afterSeparators? separator count (front ++ other) = some other := by
  fun_induction afterSeparators? separator count text with
  | case1 text =>
    obtain rfl := Option.some.inj found
    refine ⟨[], rfl, rfl, absurd rfl, ?_⟩
    intro other
    rw [nil_append, afterSeparators?]
  | case2 => cases found
  | case3 count text ih =>
    obtain ⟨front, rfl, counted, ends, skips⟩ := ih found
    refine ⟨separator :: front, rfl, by rw [count_cons_self, counted], ?_, ?_⟩
    · intro _
      by_cases empty : front = []
      · exact ⟨[], by rw [empty, nil_append]⟩
      · obtain ⟨line, rfl⟩ := ends empty
        exact ⟨separator :: line, rfl⟩
    · intro other
      rw [cons_append, afterSeparators?, if_pos rfl, skips]
  | case4 count c text different ih =>
    obtain ⟨front, rfl, counted, ends, skips⟩ := ih found
    refine ⟨c :: front, rfl, by rw [count_cons_of_ne different, counted], ?_, ?_⟩
    · intro _
      have notEmpty : front ≠ [] := by
        rintro rfl
        cases counted
      obtain ⟨line, rfl⟩ := ends notEmpty
      exact ⟨c :: line, rfl⟩
    · intro other
      rw [cons_append, afterSeparators?, if_neg different, skips]

end Text

section

variable {text : Text}

theorem headerLength_eq_zero_iff :
    headerLength text = 0 ↔ ∀ line ∈ text.fullLines.head?, isHeaderLine line = false := by
  rw [headerLength, length_eq_zero_iff]
  cases text.fullLines with
  | nil => simp
  | cons line lines => simp [takeWhile_cons]

theorem headerLength_indent {indent rest : Text} (blank : ∀ c ∈ indent, isIndent c)
    (noHeader : headerLength rest = 0) : headerLength (indent ++ rest) = 0 := by
  induction indent with
  | nil => exact noHeader
  | cons c indent ih =>
    obtain ⟨isIndentFirst, others⟩ := forall_mem_cons.mp blank
    have later := headerLength_eq_zero_iff.mp (ih others)
    have notReturn : c ≠ '\r' := ne_of_test isIndentFirst (by decide)
    have notBreak : ¬ isLineBreak c := by
      simp [HeaderLine.not_isLineBreak_of_isIndent isIndentFirst]
    apply headerLength_eq_zero_iff.mpr
    rw [cons_append, fullLines_cons notReturn, if_neg notBreak]
    intro line isFirst
    obtain rfl := Option.some.inj isFirst
    rw [isHeaderLine, dropWhile_cons_of_pos isIndentFirst, ← isHeaderLine]
    cases lines : fullLines (indent ++ rest) with
    | nil => rfl
    | cons first others => exact later first (by rw [lines]; rfl)

theorem head_of_headerLength {c : Char} {rest : Text} (notReturn : c ≠ '\r')
    (header : headerLength (c :: rest) ≠ 0) : isIndent c ∨ c = '%' ∨ c = '\n' := by
  by_cases indent : isIndent c
  · exact .inl indent
  by_cases comment : c = '%'
  · exact .inr (.inl comment)
  by_cases lineFeed : c = '\n'
  · exact .inr (.inr lineFeed)
  have other : ∀ line, isHeaderLine (c :: line) = false := by
    intro line
    simp [isHeaderLine, dropWhile_cons_of_neg indent, comment, lineFeed]
  refine absurd (headerLength_eq_zero_iff.mpr ?_) header
  rw [fullLines_cons notReturn]
  intro line isFirst
  split at isFirst
  · obtain rfl := Option.some.inj isFirst
    exact other []
  · obtain rfl := Option.some.inj isFirst
    exact other _

theorem headerOf_eq {front : Text} (split : text = front ++ dropHeader text) :
    headerOf text = front := by
  have lengths := congrArg List.length split
  rw [length_append] at lengths
  rw [headerOf, lengths, Nat.add_sub_cancel]
  conv => lhs; rw [split]
  exact take_left

theorem headerOf_append_dropHeader (text : Text) : headerOf text ++ dropHeader text = text := by
  cases found : text.afterSeparators? '\n' (headerLength text) with
  | none => simp [headerOf, dropHeader, found]
  | some code =>
    have isCode : dropHeader text = code := by
      rw [dropHeader, found]
      rfl
    obtain ⟨front, isText, _⟩ := afterSeparators?_spec found
    rw [headerOf_eq (isCode ▸ isText), isCode, ← isText]

private theorem dropHeader_lineFeeds {feeds : Text} (isFeed : ∀ c ∈ feeds, c = '\n') (text : Text) :
    dropHeader (feeds ++ text) = dropHeader text := by
  induction feeds with
  | nil => rfl
  | cons c feeds ih =>
    obtain ⟨rfl, others⟩ := forall_mem_cons.mp isFeed
    rw [← ih others]
    exact dropHeader_line ⟨[], none, by simp, by simp⟩ (feeds ++ text)

/-- A header is made of line feeds, or goes on with a blank or a comment sign behind them. -/
theorem header_cases (noReturn : '\r' ∉ text) :
    (∀ c ∈ headerOf text, c = '\n') ∨
    ∃ feeds c rest, text = feeds ++ c :: rest ∧ (∀ d ∈ feeds, d = '\n') ∧
      (isIndent c ∨ c = '%') := by
  have isFeed : ∀ c ∈ text.takeWhile (· == '\n'), c = '\n' := by
    intro c member
    exact eq_of_beq (all_eq_true.mp all_takeWhile c member)
  have split : text.takeWhile (· == '\n') ++ text.dropWhile (· == '\n') = text :=
    takeWhile_append_dropWhile
  have dropped : dropHeader text = dropHeader (text.dropWhile (· == '\n')) := by
    rw [← dropHeader_lineFeeds isFeed (text.dropWhile (· == '\n')), split]
  by_cases noHeader : headerLength (text.dropWhile (· == '\n')) = 0
  · left
    have isCode : dropHeader text = text.dropWhile (· == '\n') := by
      rw [dropped, dropHeader, noHeader, afterSeparators?]
      rfl
    rw [headerOf_eq (isCode ▸ split.symm)]
    exact isFeed
  · right
    cases behind : text.dropWhile (· == '\n') with
    | nil =>
      rw [behind] at noHeader
      exact absurd rfl noHeader
    | cons c rest =>
      have notLineFeed : c ≠ '\n' := by
        have stops := head?_dropWhile_not (· == '\n') text
        rw [behind] at stops
        simpa using stops
      have notReturn : c ≠ '\r' := by
        rintro rfl
        apply noReturn
        rw [← split, behind]
        simp
      rw [behind] at noHeader split
      refine ⟨_, c, rest, split.symm, isFeed, ?_⟩
      rcases head_of_headerLength notReturn noHeader with indent | comment | lineFeed
      · exact .inl indent
      · exact .inr comment
      · exact absurd lineFeed notLineFeed

theorem dropHeader_indent {indent : Text} (noReturn : '\r' ∉ text) (notEmpty : dropHeader text ≠ [])
    (blank : ∀ c ∈ indent, isIndent c) :
    dropHeader (headerOf text ++ (indent ++ dropHeader text)) = indent ++ dropHeader text := by
  obtain ⟨code, found⟩ : ∃ code, text.afterSeparators? '\n' (headerLength text) = some code := by
    apply Option.ne_none_iff_exists'.mp
    intro none
    exact notEmpty (by rw [dropHeader, none]; rfl)
  have isCode : dropHeader text = code := by
    rw [dropHeader, found]
    rfl
  obtain ⟨front, isText, counted, ends, skips⟩ := afterSeparators?_spec found
  rw [headerOf_eq (isCode ▸ isText), isCode]
  have noReturnFront : '\r' ∉ front := fun member => noReturn (by rw [isText]; simp [member])
  have lines : ∀ other, fullLines (front ++ other) =
      front.fullLines ++ fullLines other := by
    intro other
    by_cases empty : front = []
    · rw [empty]
      rfl
    · obtain ⟨line, rfl⟩ := ends empty
      rw [append_assoc, singleton_append]
      exact fullLines_append_lineFeed (fun member => noReturnFront (by simp [member])) other
  have length : headerLength (front ++ (indent ++ code)) = headerLength text := by
    -- The header has at most as many lines as the part in front of the code.
    have atMost : headerLength text ≤ front.fullLines.length :=
      counted ▸ count_le_length_fullLines noReturnFront
    rw [headerLength, isText, lines, takeWhile_append] at atMost
    rw [headerLength, headerLength, isText, lines, lines, takeWhile_append, takeWhile_append]
    split
    · rename_i whole
      rw [if_pos whole, length_append] at atMost
      have noHeader : headerLength code = 0 := by
        rw [headerLength]
        omega
      have noHeaderIndent := headerLength_indent blank noHeader
      rw [headerLength] at noHeader noHeaderIndent
      rw [length_append, length_append, noHeader, noHeaderIndent]
    · rfl
  rw [dropHeader, length, skips]
  rfl

end

theorem parenthesizeFrom_lineFeeds {feeds : Text} (isFeed : ∀ c ∈ feeds, c = '\n')
    (lineStart : Bool) (rest : Text) :
    parenthesizeFrom lineStart (feeds ++ rest) =
      feeds ++ parenthesizeFrom (lineStart || !feeds.isEmpty) rest := by
  induction feeds generalizing lineStart with
  | nil => simp
  | cons c feeds ih =>
    obtain ⟨rfl, others⟩ := forall_mem_cons.mp isFeed
    have noKeyword : assignedSignature? ('\n' :: (feeds ++ rest)) = none := by
      apply assignedSignature?_eq_none
      rw [dropWhile_cons_of_neg (by decide)]
      simp
    rw [cons_append, parenthesizeFrom_cons fun _ => noKeyword, ih others]
    simp

theorem joinContinuedLines_lineFeeds {feeds : Text} (isFeed : ∀ c ∈ feeds, c = '\n')
    (rest : Text) : joinContinuedLines (feeds ++ rest) = feeds ++ joinContinuedLines rest := by
  apply joinContinuedLines_append
  intro c member
  rw [isFeed c member]
  decide

theorem joinContinuedLines_header {text : Text} (isFeed : ∀ c ∈ headerOf text, c = '\n') :
    joinContinuedLines text = headerOf text ++ joinContinuedLines (dropHeader text) := by
  rw [← joinContinuedLines_lineFeeds isFeed, headerOf_append_dropHeader]

/-- A signature that the text starts with stands on one line and has its parentheses. -/
def StartsComplete (text : Text) : Prop :=
  ∀ signature, assignedSignature? text = some signature →
    ∃ line, text = line ++ signature.rest ∧ '\n' ∉ line ∧
      (signature.arguments = [] → Text.endsWith line "()")

theorem StartsComplete.parenthesizeFrom_eq {text : Text} (complete : StartsComplete text) :
    parenthesizeFrom false text = parenthesizeFrom true text := by
  cases text with
  | nil => rw [parenthesizeFrom, parenthesizeFrom]
  | cons c text =>
    cases found : assignedSignature? (c :: text) with
    | none => rw [parenthesizeFrom_cons (by simp), parenthesizeFrom_cons fun _ => found]
    | some signature =>
      obtain ⟨line, shape, oneLine, ended⟩ := complete signature found
      obtain ⟨⟨body, matched⟩, _⟩ := assignedSignature?_spec found
      have isLine : line = (c :: text).takeWhile isIndent ++ (("function" : Text) ++ body) :=
        append_cancel_right (shape.symm.trans matched)
      have notEmpty : line ≠ [] := by simp [isLine]
      have notLineFeed : (line.getLast? == some '\n') = false := by
        rw [beq_eq_false_iff_ne]
        intro isLast
        exact oneLine (mem_of_getLast? isLast)
      have kept : parenthesized signature line = line := by
        rw [parenthesized, if_neg]
        intro both
        obtain ⟨noArguments, notEnded⟩ := Bool.and_eq_true_iff.mp both
        rw [ended (of_decide_eq_true noArguments)] at notEnded
        cases notEnded
      rw [shape] at found ⊢
      rw [parenthesizeFrom_append oneLine, parenthesizeFrom_of_signature notEmpty found, kept,
        notLineFeed]

/-- Behind a byte-order mark there is no header and no signature without parentheses. -/
theorem prepareCode_marked (text : Text) :
    prepareCode (byteOrderMark :: text) =
      byteOrderMark :: parenthesizeFrom false (joinContinuedLines text) := by
  have plain : ∀ c ∈ [byteOrderMark], isContinuationSign c = false := by
    simpa using (by decide : isContinuationSign byteOrderMark = false)
  have noKeyword : ∀ rest, assignedSignature? (byteOrderMark :: rest) = none := by
    intro rest
    apply assignedSignature?_eq_none
    rw [dropWhile_cons_of_neg (by decide)]
    simp [byteOrderMark]
  rw [prepareCode, dropHeader_cons text (by decide) (by decide) (by decide),
    ← singleton_append, joinContinuedLines_append plain, singleton_append,
    addParentheses, parenthesizeFrom_cons fun _ => noKeyword _]
  rfl

theorem exists_trim_cons {feeds : Text} (isFeed : ∀ c ∈ feeds, c = '\n') {c : Char}
    (notLineFeed : c ≠ '\n') (notReturn : c ≠ '\r') (rest : Text) :
    ∃ more, Text.trim (· == '\n') (unixNewlines (feeds ++ c :: rest)) = c :: more := by
  have noReturn : '\r' ∉ feeds := fun member => absurd (isFeed _ member) (by decide)
  have dropped : ∀ d ∈ feeds, (d == '\n') = true := fun d member => by rw [isFeed d member]; rfl
  have stops : ¬ (c == '\n') = true := by simpa using notLineFeed
  have kept : ∀ d ∈ [c].getLast?, (d == '\n') = false := by simpa using notLineFeed
  refine ⟨trimRight (· == '\n') (unixNewlines rest), ?_⟩
  rw [unixNewlines_append noReturn, unixNewlines_cons notReturn, trim,
    dropWhile_append_of_pos dropped, dropWhile_cons_of_neg (p := (· == '\n')) stops,
    ← singleton_append, trimRight_append_of_getLast? kept]
  rfl

theorem normalizeCode_marked (text : Text) :
    normalizeCode (byteOrderMark :: text) = Text.trim (· == '\n') (unixNewlines text) ++ ['\n'] :=
  rfl

theorem normalizeCode_unmarked {text : Text} (noMark : text.head? ≠ some byteOrderMark) :
    normalizeCode text = Text.trim (· == '\n') (unixNewlines text) ++ ['\n'] := by
  cases text with
  | nil => rfl
  | cons c text =>
    have different : c ≠ byteOrderMark := by simpa using noMark
    exact congrArg (fun plain => trim (· == '\n') (unixNewlines plain) ++ ['\n'])
      (if_neg different)

/-- Behind the mark, line feeds and then code are read as the code, unless it is marked too. -/
theorem normalizeCode_marked_lineFeeds {feeds text : Text} (isFeed : ∀ c ∈ feeds, c = '\n')
    (noMark : text.head? ≠ some byteOrderMark) :
    normalizeCode (byteOrderMark :: (feeds ++ text)) = normalizeCode text := by
  have noReturn : '\r' ∉ feeds := fun member => absurd (isFeed _ member) (by decide)
  have dropped : ∀ d ∈ feeds, (d == '\n') = true := fun d member => by rw [isFeed d member]; rfl
  rw [normalizeCode_marked, normalizeCode_unmarked noMark, unixNewlines_append noReturn, trim,
    trim, dropWhile_append_of_pos dropped]

namespace Definition

def isScript (reading : Reading Definition) : Bool :=
  match reading.result with
  | .ok (.script _) => true
  | _ => false

variable {name module text : Text}

theorem isScript_ofCode {c : Char} {more : Text}
    (starts : normalizeCode (prepareCode text) = c :: more) (notClass : c ≠ 'c')
    (notFunction : c ≠ 'f') : isScript (ofCode name module text) := by
  have scan := scans_lexFrom .code none (normalizeCode (prepareCode text))
  rw [ofCode, lex]
  cases tokens : lexFrom .code none (normalizeCode (prepareCode text)) with
  | nil => rfl
  | cons first rest =>
    rw [tokens] at scan
    obtain ⟨d, value, isValue⟩ :=
      exists_cons_of_ne_nil (scan.value_ne_nil first mem_cons_self)
    have isFirst : d = c := by
      have whole := scan.concat_eq
      rw [starts, Token.concat, flatMap_cons, isValue] at whole
      exact (List.cons.inj whole).1
    have noKeyword : ∀ keyword : Text, keyword.head? ≠ some c → ¬ first.isKeyword keyword := by
      intro keyword different isKeyword
      have isToken : first = ⟨.keyword, keyword⟩ := eq_of_beq isKeyword
      rw [isToken] at isValue
      have isKeywordText : keyword = d :: value := isValue
      apply different
      rw [isKeywordText, isFirst]
      rfl
    dsimp only
    rw [if_neg (noKeyword "classdef" (by simpa using notClass.symm)),
      if_neg (noKeyword "function" (by simpa using notFunction.symm))]
    rfl

private theorem dropHeader_ne_nil (noScript : isScript (ofCode name module text) = false) :
    dropHeader text ≠ [] := by
  intro empty
  have nothing : normalizeCode (prepareCode text) = ['\n'] := by
    have noJoined : joinContinuedLines [] = [] := rfl
    rw [prepareCode, empty, noJoined, addParentheses, parenthesizeFrom]
    rfl
  rw [isScript_ofCode nothing (by decide) (by decide)] at noScript
  cases noScript

theorem isScript_ofCode_indented {indent : Text} (noReturn : '\r' ∉ text)
    (noScript : isScript (ofCode name module text) = false) (notEmpty : indent ≠ [])
    (blank : ∀ c ∈ indent, isIndent c) :
    isScript (ofCode name module (headerOf text ++ (indent ++ dropHeader text))) := by
  obtain ⟨c, indent, rfl⟩ := exists_cons_of_ne_nil notEmpty
  have isIndentFirst : isIndent c := blank c mem_cons_self
  have ne_of_not_isIndent : ∀ other, isIndent other = false → c ≠ other :=
    fun other fails => ne_of_test isIndentFirst fails
  obtain ⟨joined, isJoined⟩ := exists_joinContinuedLines_cons (ne_of_not_isIndent '.' (by decide))
    (indent ++ dropHeader text)
  obtain ⟨prepared, isPrepared⟩ := exists_parenthesizeFrom_cons true c joined
  obtain ⟨plain, isPlain⟩ := @exists_trim_cons [] (forall_mem_nil _) c
    (ne_of_not_isIndent '\n' (by decide)) (ne_of_not_isIndent '\r' (by decide)) prepared
  have starts : normalizeCode (prepareCode (headerOf text ++ (c :: indent ++ dropHeader text))) =
      c :: (plain ++ ['\n']) := by
    have noMark : (c :: prepared).head? ≠ some byteOrderMark := by
      simpa using ne_of_not_isIndent byteOrderMark (by decide)
    rw [prepareCode, dropHeader_indent noReturn (dropHeader_ne_nil noScript) blank,
      cons_append, isJoined, addParentheses, isPrepared, normalizeCode_unmarked noMark,
      ← nil_append (c :: prepared), isPlain, cons_append]
  exact isScript_ofCode starts (ne_of_not_isIndent 'c' (by decide))
    (ne_of_not_isIndent 'f' (by decide))

/-- A marked text is a script if the first sign of its joined lines is no line feed and does not
start a keyword. -/
private theorem isScript_ofCode_marked {feeds rest : Text} {c : Char}
    (joined : joinContinuedLines text = feeds ++ c :: rest) (isFeed : ∀ d ∈ feeds, d = '\n')
    (other : c ∉ ['\n', '\r', 'c', 'f']) :
    isScript (ofCode name module (byteOrderMark :: text)) := by
  simp only [mem_cons, not_mem_nil, or_false, not_or] at other
  obtain ⟨notLineFeed, notReturn, notClass, notFunction⟩ := other
  obtain ⟨more, isPrepared⟩ := exists_parenthesizeFrom_cons (false || !feeds.isEmpty) c rest
  obtain ⟨plain, isPlain⟩ := exists_trim_cons isFeed notLineFeed notReturn more
  have starts : normalizeCode (prepareCode (byteOrderMark :: text)) = c :: (plain ++ ['\n']) := by
    rw [prepareCode_marked, joined, parenthesizeFrom_lineFeeds isFeed, isPrepared,
      normalizeCode_marked, isPlain, cons_append]
  exact isScript_ofCode starts notClass notFunction

theorem isScript_ofCode_marked_header (noReturn : '\r' ∉ text)
    (header : (∃ c ∈ headerOf text, c ≠ '\n') ∨ (prepareCode text).head? = some byteOrderMark) :
    isScript (ofCode name module (byteOrderMark :: text)) := by
  rcases header_cases noReturn with isFeed | ⟨feeds, c, rest, rfl, isFeed, sign⟩
  · have marked : (prepareCode text).head? = some byteOrderMark := by
      rcases header with ⟨c, member, notLineFeed⟩ | marked
      · exact absurd (isFeed c member) notLineFeed
      · exact marked
    rw [prepareCode, addParentheses] at marked
    have joined := joinContinuedLines_header isFeed
    cases shape : joinContinuedLines (dropHeader text) with
    | nil =>
      rw [shape, parenthesizeFrom] at marked
      cases marked
    | cons c rest =>
      obtain ⟨more, isPrepared⟩ := exists_parenthesizeFrom_cons true c rest
      rw [shape, isPrepared] at marked
      obtain rfl := Option.some.inj marked
      rw [shape] at joined
      exact isScript_ofCode_marked joined isFeed (by decide)
  · have other : c ∉ ['.', '\n', '\r', 'c', 'f'] := by
      intro member
      rcases sign with indent | comment
      · exact absurd indent (any_eq_false.mp (by decide) c member)
      · rw [comment] at member
        exact absurd member (by decide)
    obtain ⟨notDot, others⟩ := ne_and_not_mem_of_not_mem_cons other
    obtain ⟨more, isJoined⟩ := exists_joinContinuedLines_cons notDot rest
    have joined : joinContinuedLines (feeds ++ c :: rest) = feeds ++ c :: more := by
      rw [joinContinuedLines_lineFeeds isFeed, isJoined]
    exact isScript_ofCode_marked joined isFeed others

/-- Behind a mark, code without a header is read alike if its first signature is complete, and so
is code below line feeds. -/
private theorem lex_prepareCode_marked (isFeed : ∀ c ∈ headerOf text, c = '\n')
    (noMark : (prepareCode text).head? ≠ some byteOrderMark)
    (complete : headerOf text = [] → StartsComplete (joinContinuedLines text)) :
    lex (prepareCode (byteOrderMark :: text)) = lex (prepareCode text) := by
  have joined := joinContinuedLines_header isFeed
  have prepared : parenthesizeFrom false (joinContinuedLines text) =
      headerOf text ++ prepareCode text := by
    rw [prepareCode, addParentheses]
    by_cases empty : headerOf text = []
    · rw [empty, nil_append] at joined ⊢
      rw [(complete empty).parenthesizeFrom_eq, joined]
    · have someLine : (headerOf text).isEmpty = false := by simpa using empty
      rw [joined, parenthesizeFrom_lineFeeds isFeed, someLine]
      rfl
  rw [lex, prepareCode_marked, prepared, normalizeCode_marked_lineFeeds isFeed noMark, ← lex]

end Definition

/-- What may stand in front of a class or a function.  Blanks in front of the first line of code
make it a script.  So does a byte-order mark in front of a header, unless the header is made of line
feeds only, and in front of code that is marked already.  Otherwise a mark changes nothing, as long
as a signature on the first line has its parentheses. -/
theorem kind_of_marked_or_indented_code (name path : Text) (encodingName : Option Text)
    (encoding : Encoding) (bytes : List UInt8) (text : Text)
    (known : Definition.encodingOf? encodingName = some encoding)
    (decoded : unixNewlines (encoding.decode bytes) = text)
    (noScript : Definition.isScript (Definition.ofBytes name path encodingName bytes) = false) :
    (∀ (indent : Text) (indented : List UInt8), indent ≠ [] → (∀ c ∈ indent, isIndent c) →
      unixNewlines (encoding.decode indented) = headerOf text ++ (indent ++ dropHeader text) →
      Definition.isScript (Definition.ofBytes name path encodingName indented) = true) ∧
    ∀ marked : List UInt8, unixNewlines (encoding.decode marked) = byteOrderMark :: text →
      ((∃ c ∈ headerOf text, c ≠ '\n') ∨ (prepareCode text).head? = some byteOrderMark →
        Definition.isScript (Definition.ofBytes name path encodingName marked) = true) ∧
      ((∀ c ∈ headerOf text, c = '\n') → (prepareCode text).head? ≠ some byteOrderMark →
        (headerOf text = [] → StartsComplete (joinContinuedLines text)) →
        Definition.ofBytes name path encodingName marked =
          Definition.ofBytes name path encodingName bytes) := by
  have read : ∀ other, ofBytes name path encodingName other =
      ofCode name (moduleOfPath path)
        (unixNewlines (encoding.decode other)) := by
    intro other
    rw [ofBytes, known]
  have noReturn : '\r' ∉ text := decoded ▸ return_not_mem_unixNewlines _
  rw [read, decoded] at noScript
  constructor
  · intro indent indented notEmpty blank isIndented
    rw [read, isIndented]
    exact isScript_ofCode_indented noReturn noScript notEmpty blank
  · intro marked isMarked
    rw [read, read, isMarked, decoded]
    constructor
    · exact isScript_ofCode_marked_header noReturn
    · intro isFeed noMark complete
      apply ofCode_of_lex_eq (lex_prepareCode_marked isFeed noMark complete)
      intro script isScript
      rw [Definition.isScript, isScript] at noScript
      cases noScript

def markBytes : List UInt8 :=
  [0xEF, 0xBB, 0xBF]

def discCode : Text :=
  "% discs\nclassdef Disc\nend"

theorem kind_of_marked_or_indented_code_disc :
    Definition.isScript (Definition.ofBytes "Disc" "lib" none (bytesOf discCode)) = false ∧
    Definition.isScript (Definition.ofBytes "Disc" "lib" none
      (bytesOf "% discs\n \tclassdef Disc\nend")) = true ∧
    Definition.isScript (Definition.ofBytes "Disc" "lib" none
      (markBytes ++ bytesOf discCode)) = true ∧
    Definition.ofBytes "scale" "lib" none (markBytes ++ bytesOf scaleCode) =
      Definition.ofBytes "scale" "lib" none (bytesOf scaleCode) :=
  have isClass : isScript (ofBytes "Disc" "lib" none
      (bytesOf discCode)) = false := by decide +kernel
  have ofDisc := kind_of_marked_or_indented_code "Disc" "lib" none .utf8 (bytesOf discCode) discCode
    rfl (by decide +kernel) isClass
  have ofScale := kind_of_marked_or_indented_code "scale" "lib" none .utf8 (bytesOf scaleCode)
    scaleCode rfl (by decide +kernel) (by decide +kernel)
  have noHeader : headerOf scaleCode = [] := by decide +kernel
  have complete : StartsComplete (joinContinuedLines scaleCode) := by
    have found : assignedSignature? (joinContinuedLines scaleCode) =
        some ⟨"scale", "x", "\n% scales"⟩ := by decide +kernel
    intro signature isSome
    obtain rfl := Option.some.inj (found.symm.trans isSome)
    exact ⟨"function y = scale(x)", by decide +kernel, by decide, by decide⟩
  ⟨isClass, ofDisc.1 " \t" _ (by decide) (List.all_eq_true.mp (by decide)) (by decide +kernel),
    (ofDisc.2 _ (by decide +kernel)).1 (.inl ⟨'%', by decide +kernel, by decide⟩),
    (ofScale.2 _ (by decide +kernel)).2 (by rw [noHeader]; exact List.forall_mem_nil _)
      (by decide +kernel) fun _ => complete⟩

/-- A documented function becomes a script behind blanks, and behind a byte-order mark if it has a
header; and behind a mark its name is not found where parentheses are missing. -/
theorem marked_or_indented_function_misread :
    Definition.isScript (Definition.ofBytes "scale" "lib" none (bytesOf scaleCode)) = false ∧
    Definition.isScript (Definition.ofBytes "scale" "lib" none
      (bytesOf "  function y = scale(x)\n% scales")) = true ∧
    Definition.isScript (Definition.ofBytes "scale" "lib" none
      (markBytes ++ bytesOf "% h\nfunction y = scale(x)\n% scales")) = true ∧
    (Definition.ofBytes "run" "lib" none (bytesOf "function y = run\n")).notices = [] ∧
    (Definition.ofBytes "run" "lib" none (markBytes ++ bytesOf "function y = run\n")).notices =
      [.unexpectedFunctionName "y" "run" "lib"] := by
  decide +kernel

end MatlabDocs
