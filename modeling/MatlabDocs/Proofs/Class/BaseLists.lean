import MatlabDocs.Proofs.Class.ClassHeads
import MatlabDocs.Proofs.Class.Relocation

/-!
# Lists of base classes

The base classes of a class stand on its first line behind a `<`, with an `&` between any two.  The
reader cuts this list at its blanks, and an `&` parts two base classes only right behind blanks.
Without a blank in front, it stays at the end or in the middle of a name, and a comment behind the
list is taken for a base class or for a part of the last one.  `BaseList.recorded` says what is
found for every layout, and when this is the list that is written.  The next line is read as if
the first one had ended behind the name of the class.
-/

namespace MatlabDocs

open List ClassState LineEndToken

/-! ## Layout -/

structure BaseLink where
  before : List IndentToken
  after : List IndentToken
  base : DottedName

namespace BaseLink

variable (link : BaseLink)

def text : Text :=
  indentText link.before ++ ('&' :: (indentText link.after ++ link.base.text))

def tokens : List Token :=
  link.before.unattach ++ ⟨.operator, "&"⟩ :: (link.after.unattach ++ link.base.tokens)

end BaseLink

structure LineTail where
  blanks : List IndentToken
  comment : Option Text
  oneLine : ∀ text ∈ comment, '\n' ∉ text
  opensNone : ∀ text ∈ comment, opensBlockComment text = false

namespace LineTail

variable (tail : LineTail)

def commentText : Text :=
  match tail.comment with
  | none => []
  | some text => '%' :: text

def commentTokens : List Token :=
  match tail.comment with
  | none => []
  | some text => [⟨.comment, '%' :: text⟩]

def text : Text :=
  indentText tail.blanks ++ tail.commentText

def tokens : List Token :=
  tail.blanks.unattach ++ tail.commentTokens

def recorded (name : Text) : List Text :=
  match tail.comment with
  | none => [name]
  | some text => if tail.blanks = [] then [name ++ '%' :: text] else [name, '%' :: text]

/-- What is found from a name on, if these links follow it. -/
def recordedFrom (name : Text) : List BaseLink → List Text
  | [] => tail.recorded name
  | link :: links =>
    if link.before ≠ [] then name :: recordedFrom link.base.text links
    else if link.after ≠ [] then (name ++ ['&']) :: recordedFrom link.base.text links
    else recordedFrom (name ++ '&' :: link.base.text) links

end LineTail

/-- What stands behind the name of a class on its first line. -/
structure BaseList where
  beforeSign : List IndentToken
  afterSign : List IndentToken
  first : DottedName
  links : List BaseLink
  tail : LineTail

namespace BaseList

variable (list : BaseList)

def nameText : Text :=
  indentText list.afterSign ++ (list.first.text ++
    (list.links.flatMap BaseLink.text ++ list.tail.text))

def nameTokens : List Token :=
  list.afterSign.unattach ++ (list.first.tokens ++
    (list.links.flatMap BaseLink.tokens ++ list.tail.tokens))

def text : Text :=
  indentText list.beforeSign ++ '<' :: list.nameText

def tokens : List Token :=
  list.beforeSign.unattach ++ ⟨.operator, "<"⟩ :: list.nameTokens

def bases : List Text :=
  list.first.text :: list.links.map (·.base.text)

def recorded : List Text :=
  list.tail.recordedFrom list.first.text list.links

end BaseList

/-! ## What is found -/

namespace LineTail

variable (tail : LineTail)

theorem recordedFrom_of_apart {links : List BaseLink} (apart : ∀ link ∈ links, link.before ≠ [])
    (uncommented : tail.comment = none) (name : Text) :
    tail.recordedFrom name links = name :: links.map (·.base.text) := by
  induction links generalizing name with
  | nil => simp [recordedFrom, recorded, uncommented]
  | cons link links ih =>
    obtain ⟨linkApart, linksApart⟩ := forall_mem_cons.mp apart
    rw [recordedFrom, if_pos linkApart, ih linksApart, map_cons]

/-- Together the names hold all that is written but the blanks, and an `&` behind blanks. -/
theorem flatten_recordedFrom (name : Text) (links : List BaseLink) :
    (tail.recordedFrom name links).flatten = name ++ (links.flatMap (fun link =>
      (if link.before = [] then ['&'] else []) ++ link.base.text) ++ tail.commentText) := by
  induction links generalizing name with
  | nil =>
    rw [recordedFrom, recorded, commentText]
    cases tail.comment with
    | none => simp
    | some text => by_cases tight : tail.blanks = [] <;> simp [tight]
  | cons link links ih =>
    rw [recordedFrom]
    by_cases tight : link.before = []
    · by_cases joined : link.after = [] <;> simp [tight, joined, ih]
    · simp [tight, ih]

end LineTail

theorem DottedName.isWord_or_eq_dot (name : DottedName) : ∀ c ∈ name.text, isWord c ∨ c = '.' := by
  intro c member
  simp only [text, mem_append, mem_flatMap, mem_cons] at member
  rcases member with inFirst | ⟨word, _, isDot | inWord⟩
  · exact .inl (name.first.isWord_of_mem c inFirst)
  · exact .inr isDot
  · exact .inl (word.isWord_of_mem c inWord)

namespace BaseList

variable (list : BaseList)

private theorem isWord_or_eq_dot_of_mem_bases : ∀ c ∈ list.bases.flatten, isWord c ∨ c = '.' := by
  intro c member
  simp only [bases, flatten_cons, mem_append, mem_flatten, mem_map] at member
  rcases member with inFirst | ⟨_, ⟨link, _, rfl⟩, inBase⟩
  · exact list.first.isWord_or_eq_dot c inFirst
  · exact link.base.isWord_or_eq_dot c inBase

/-- The list is found as it is written just if a blank stands in front of every `&` and no comment
follows. -/
theorem recorded_eq_bases_iff :
    list.recorded = list.bases ↔
      (∀ link ∈ list.links, link.before ≠ []) ∧ list.tail.comment = none := by
  constructor
  · intro same
    have plain := list.isWord_or_eq_dot_of_mem_bases
    rw [← same, recorded, LineTail.flatten_recordedFrom] at plain
    constructor
    · intro link member tight
      refine absurd (plain '&' ?_) (by decide)
      simp only [mem_append, mem_flatMap]
      exact .inr (.inl ⟨link, member, by simp [tight]⟩)
    · by_contra commented
      obtain ⟨text, comment⟩ := Option.ne_none_iff_exists'.mp commented
      exact absurd (plain '%' (by simp [LineTail.commentText, comment])) (by decide)
  · rintro ⟨apart, uncommented⟩
    exact list.tail.recordedFrom_of_apart apart uncommented list.first.text

end BaseList

/-! ## Reading -/

namespace DottedName

variable (name : DottedName)

theorem not_isSpacing_of_mem_tokens : ∀ token ∈ name.tokens, isSpacing token = false := by
  intro token member
  rcases name.cases_of_mem_tokens member with rfl | ⟨word, rfl⟩
  · decide
  · rcases word.kind_cases with kind | kind | kind <;>
      simp [isSpacing, CodeWord.token, kind]

theorem concat_tokens_ne_nil : Token.concat name.tokens ≠ [] := by
  obtain ⟨first, tail, text, _⟩ := name.exists_text_eq
  simp [name.concat_tokens, text]

end DottedName

namespace ClassState

variable {position : Nat} {definition : ClassDef} {notices : List Notice}

section

variable (before : List IndentToken) {word rest : List Token}
  (isWord : ∀ token ∈ word, isSpacing token = false) (hasText : Token.concat word ≠ [])
  (hasMore : ∃ token ∈ rest, isSpacing token = false)
include isWord hasText hasMore

theorem readBases_apart {link : BaseLink} (apart : link.before ≠ []) :
    readBases ⟨position, before.unattach ++ (word ++ (link.tokens ++ rest)), definition, notices⟩ =
      readBases ⟨position + (before.length + (word.length + link.before.length) + 1),
        link.after.unattach ++ (link.base.tokens ++ rest),
        { definition with bases := definition.bases ++ [Token.concat word] }, notices⟩ := by
  obtain ⟨token, member, isText⟩ := hasMore
  have read := @readBases_base position definition notices
    ⟨before, word, isWord, hasText, link.before⟩ ⟨.operator, "&"⟩
    (link.after.unattach ++ (link.base.tokens ++ rest)) rfl (absurd · apart)
    ⟨token, by simp [member], isText⟩
  rw [if_pos (by decide)] at read
  simpa only [BaseLayout.tokens, BaseLayout.text, BaseLink.tokens, append_assoc, cons_append,
    length_append, length_unattach] using read

omit hasText in
/-- An `&` with a blank behind it alone belongs to the name in front. -/
theorem readBases_parted {link : BaseLink} (tight : link.before = []) (parted : link.after ≠ []) :
    readBases ⟨position, before.unattach ++ (word ++ (link.tokens ++ rest)), definition, notices⟩ =
      readBases ⟨position + (before.length + (word.length + (1 + link.after.length))),
        link.base.tokens ++ rest,
        { definition with bases := definition.bases ++ [Token.concat word ++ ['&']] },
        notices⟩ := by
  obtain ⟨token, member, isText⟩ := hasMore
  have signed : ∀ token ∈ word ++ [⟨.operator, "&"⟩], isSpacing token = false :=
    forall_mem_append.mpr ⟨isWord, by decide⟩
  have notSign : ¬ link.base.first.token.isOperator "&" = true := by
    rcases link.base.first.kind_cases with kind | kind | kind <;>
      simp [Token.isOperator, CodeWord.token, kind]
  have read := @readBases_base position definition notices
    ⟨before, word ++ [⟨.operator, "&"⟩], signed, by simp [Token.concat], link.after⟩
    link.base.first.token (link.base.tokens.tail ++ rest) (by simp) (absurd · parted)
    ⟨token, by simp [member], isText⟩
  rw [if_neg notSign] at read
  have tokens : link.tokens ++ rest = [⟨.operator, "&"⟩] ++ (link.after.unattach ++
      link.base.first.token :: (link.base.tokens.tail ++ rest)) := by
    simp [BaseLink.tokens, tight, DottedName.tokens]
  have name : Token.concat (word ++ [⟨.operator, "&"⟩]) = Token.concat word ++ ['&'] := by
    simp [Token.concat]
  simp only [BaseLayout.tokens, BaseLayout.text, append_assoc, name, length_append,
    length_unattach] at read
  rw [tokens, read]
  rfl

/-- A comment behind blanks is taken for a base class, and one right behind a name for a part of
it. -/
private theorem readBases_tail (tail : LineTail) :
    readBases ⟨position, before.unattach ++ (word ++ (tail.tokens ++
        feed.val :: rest)), definition, notices⟩ =
      .ok ⟨position + (before.length + (word.length + tail.tokens.length) + 1), rest,
        { definition with bases := definition.bases ++ tail.recorded (Token.concat word) },
        notices⟩ := by
  cases comment : tail.comment with
  | none =>
    have read := @readBases_last position definition notices
      ⟨before, word, isWord, hasText, tail.blanks⟩ feed rest hasMore
    simpa only [BaseLayout.tokens, BaseLayout.text, LineTail.tokens, LineTail.commentTokens,
      LineTail.recorded, comment, append_nil, append_assoc, length_append, length_unattach]
      using read
  | some text =>
    have isComment : ∀ token ∈ [(⟨.comment, '%' :: text⟩ : Token)], isSpacing token = false :=
      forall_mem_singleton.mpr rfl
    have commented : Token.concat [⟨.comment, '%' :: text⟩] = '%' :: text := by
      simp [Token.concat]
    by_cases tight : tail.blanks = []
    · have name : Token.concat (word ++ [⟨.comment, '%' :: text⟩]) =
          Token.concat word ++ '%' :: text := by
        simp [Token.concat]
      have read := @readBases_last position definition notices
        ⟨before, word ++ [⟨.comment, '%' :: text⟩], forall_mem_append.mpr ⟨isWord, isComment⟩,
          by simp [name], []⟩ feed rest hasMore
      simpa [BaseLayout.tokens, BaseLayout.text, LineTail.tokens, LineTail.commentTokens,
        LineTail.recorded, comment, tight, name] using read
    · obtain ⟨token, member, isText⟩ := hasMore
      have first := @readBases_base position definition notices
        ⟨before, word, isWord, hasText, tail.blanks⟩ ⟨.comment, '%' :: text⟩ (feed.val :: rest) rfl
        (absurd · tight) ⟨token, by simp [member], isText⟩
      rw [if_neg (by simp [Token.isOperator])] at first
      have second := fun position definition => @readBases_last position definition notices
        ⟨[], [⟨.comment, '%' :: text⟩], isComment, by simp [commented], []⟩ feed rest
        ⟨token, member, isText⟩
      simp only [BaseLayout.tokens, BaseLayout.text, commented, unattach_nil, nil_append,
        append_nil, append_assoc, singleton_append] at first second
      simp only [LineTail.tokens, LineTail.commentTokens, LineTail.recorded, comment, tight,
        if_false, append_assoc, singleton_append]
      rw [first, second]
      simp only [append_assoc, singleton_append, length_append, length_unattach, length_cons,
        length_nil, Except.ok.injEq, mk.injEq, and_true]
      omega

end

theorem readBases_links (tail : LineTail) (links : List BaseLink) (before : List IndentToken)
    {word rest : List Token} (isWord : ∀ token ∈ word, isSpacing token = false)
    (hasText : Token.concat word ≠ []) (hasMore : ∃ token ∈ rest, isSpacing token = false) :
    readBases ⟨position, before.unattach ++ (word ++ (links.flatMap BaseLink.tokens ++
        (tail.tokens ++ feed.val :: rest))), definition, notices⟩ =
      .ok ⟨position + (before.length + (word.length + (links.flatMap BaseLink.tokens).length +
          tail.tokens.length) + 1), rest,
        { definition with
          bases := definition.bases ++ tail.recordedFrom (Token.concat word) links },
        notices⟩ := by
  induction links generalizing before word position definition with
  | nil => exact readBases_tail before isWord hasText hasMore tail
  | cons link links ih =>
    have behind : ∃ token ∈ links.flatMap BaseLink.tokens ++
        (tail.tokens ++ feed.val :: rest), isSpacing token = false := by
      obtain ⟨token, member, isText⟩ := hasMore
      exact ⟨token, by simp [member], isText⟩
    have baseWord := link.base.not_isSpacing_of_mem_tokens
    have baseText := link.base.concat_tokens_ne_nil
    have length : link.tokens.length =
        link.before.length + 1 + link.after.length + link.base.tokens.length := by
      simp only [BaseLink.tokens, length_append, length_cons, length_unattach]
      omega
    rw [flatMap_cons, append_assoc, length_append, LineTail.recordedFrom]
    by_cases apart : link.before ≠ []
    · rw [readBases_apart before isWord hasText behind apart, ih _ baseWord baseText,
        if_pos apart, link.base.concat_tokens, append_assoc, singleton_append]
      simp only [Except.ok.injEq, mk.injEq, and_true]
      omega
    · have tight : link.before = [] := not_not.mp apart
      rw [if_neg apart]
      by_cases parted : link.after ≠ []
      · have later := @ih
          (position + (before.length + (word.length + (1 + link.after.length))))
          { definition with bases := definition.bases ++ [Token.concat word ++ ['&']] } []
          _ baseWord baseText
        rw [unattach_nil, nil_append] at later
        rw [readBases_parted before isWord behind tight parted, later, if_pos parted,
          link.base.concat_tokens, append_assoc, singleton_append]
        simp only [length, tight, length_nil, Except.ok.injEq, mk.injEq, and_true]
        omega
      · -- Without any blank the sign and the next name are parts of the word.
        have joined : link.after = [] := not_not.mp parted
        have longer : ∀ token ∈ word ++ link.tokens, isSpacing token = false := by
          refine forall_mem_append.mpr ⟨isWord, ?_⟩
          simp only [BaseLink.tokens, tight, joined, unattach_nil, nil_append]
          exact forall_mem_cons.mpr ⟨by decide, baseWord⟩
        have name : Token.concat (word ++ link.tokens) =
            Token.concat word ++ '&' :: link.base.text := by
          rw [← link.base.concat_tokens]
          simp [Token.concat, BaseLink.tokens, tight, joined]
        have later := @ih position definition before (word ++ link.tokens) longer
          (by simp [name])
        rw [append_assoc, name, length_append] at later
        rw [later, if_neg parted]
        simp [Nat.add_assoc]

end ClassState

/-! ## Lexing -/

variable {rest : Text}

variable {before : Char} (link : BaseLink) (links : List BaseLink)

theorem BaseLink.not_isWord_head (ends : EndsWord rest) :
    EndsWord (links.flatMap BaseLink.text ++ rest) := by
  cases links with
  | nil => exact ends
  | cons link links =>
    have shape : (link :: links).flatMap BaseLink.text ++ rest = indentText link.before ++
        ('&' :: (indentText link.after ++ link.base.text ++ links.flatMap BaseLink.text ++
          rest)) := by
      simp [BaseLink.text]
    rw [shape]
    exact ends_indentText_append link.before (by simp; decide)

theorem BaseLink.lineFeed_not_mem_text : '\n' ∉ link.text := by
  simp only [text, mem_append, mem_cons, not_or]
  exact ⟨lineFeed_not_mem_indentText _, by decide, lineFeed_not_mem_indentText _,
    link.base.lineFeed_not_mem_text⟩

theorem BaseLink.lexedAs (inLine : before ≠ '\n')
    (ends : EndsWord rest) : LexedAs before link.text link.tokens rest := by
  have behindFront := getLastD_ne inLine (lineFeed_not_mem_indentText link.before)
  have signed : ['&'].getLastD ((indentText link.before).getLastD before) ≠ '\n' := by simp
  have behindSign := getLastD_ne signed (lineFeed_not_mem_indentText link.after)
  have single : (indentText link.after ++ link.base.text ++ rest).head? ≠ some '&' := by
    intro first
    rw [append_assoc] at first
    rcases head?_indentText_append link.after _ '&' first with blank | inBase
    · exact absurd blank (by decide)
    · obtain ⟨initial, letters, text, ascii⟩ := link.base.exists_text_eq
      obtain rfl : initial = '&' := by simpa [text] using inBase
      exact absurd ascii (by decide)
  exact (lexedAs_indent inLine link.before _).append ((lexedAs_ampersand single).append
    ((lexedAs_indent signed link.after _).append (link.base.lexedAs behindSign ends)))

theorem BaseLink.lexedAs_flatMap (inLine : before ≠ '\n') (ends : EndsWord rest) :
    LexedAs before (links.flatMap BaseLink.text) (links.flatMap BaseLink.tokens) rest := by
  induction links generalizing before with
  | nil => exact LexedAs.nil before rest
  | cons link links ih =>
    exact (link.lexedAs inLine (not_isWord_head links ends)).append
      (ih (getLastD_ne inLine link.lineFeed_not_mem_text))

namespace LineTail

variable (tail : LineTail)

theorem not_isWord_head (rest : Text) : EndsWord (tail.text ++ '\n' :: rest) := by
  have behind : EndsWord (tail.commentText ++ '\n' :: rest) := by
    unfold commentText
    cases tail.comment <;> simp <;> decide
  rw [text, append_assoc]
  exact ends_indentText_append tail.blanks behind

theorem lexFrom_text {before : Char} (inLine : before ≠ '\n') (rest : Text) :
    lexFrom .code (some before) (tail.text ++ '\n' :: rest) =
      tail.tokens ++ feed.val :: lexFrom .code (some '\n') rest := by
  have behindBlanks := getLastD_ne inLine (lineFeed_not_mem_indentText tail.blanks)
  have blanks := lexedAs_indent inLine tail.blanks (tail.commentText ++ '\n' :: rest)
  rw [text, tokens, append_assoc, blanks, append_assoc]
  congr 1
  cases comment : tail.comment with
  | none =>
    rw [commentText, commentTokens, comment]
    exact lexFrom_lineFeed behindBlanks
  | some text =>
    rw [commentText, commentTokens, comment]
    exact lexFrom_commentLine (tail.oneLine text comment) (tail.opensNone text comment)

end LineTail

namespace BaseList

variable (list : BaseList)

private theorem lexFrom_nameText {before : Char} (inLine : before ≠ '\n') (rest : Text) :
    lexFrom .code (some before) (list.nameText ++ '\n' :: rest) =
      list.nameTokens ++ feed.val :: lexFrom .code (some '\n') rest := by
  have behindSign := getLastD_ne inLine (lineFeed_not_mem_indentText list.afterSign)
  have behindFirst := getLastD_ne behindSign list.first.lineFeed_not_mem_text
  have links : '\n' ∉ list.links.flatMap BaseLink.text := by
    simp only [mem_flatMap, not_exists, not_and]
    exact fun link _ => link.lineFeed_not_mem_text
  have tailEnds := list.tail.not_isWord_head rest
  have front := (lexedAs_indent inLine list.afterSign _).append
    ((list.first.lexedAs behindSign (BaseLink.not_isWord_head list.links tailEnds)).append
      (BaseLink.lexedAs_flatMap list.links behindFirst tailEnds))
  have inFront : (indentText list.afterSign ++ (list.first.text ++
      list.links.flatMap BaseLink.text)).getLastD before ≠ '\n' := by
    simp only [getLastD_append]
    exact getLastD_ne behindFirst links
  rw [LexedAs, list.tail.lexFrom_text inFront rest] at front
  simpa [nameText, nameTokens] using front

theorem lexFrom_text {before : Char} (inLine : before ≠ '\n') (rest : Text) :
    lexFrom .code (some before) (list.text ++ '\n' :: rest) =
      list.tokens ++ feed.val :: lexFrom .code (some '\n') rest := by
  have signed : ∀ before : Char, ['<'].getLastD before ≠ '\n' := by simp
  have front := (lexedAs_indent inLine list.beforeSign _).append
    (@lexedAs_less _ (list.nameText ++ '\n' :: rest))
  rw [LexedAs, getLastD_append, list.lexFrom_nameText (signed _) rest] at front
  simpa [text, tokens] using front

theorem not_isWord_head (rest : Text) : EndsWord (list.text ++ '\n' :: rest) := by
  rw [text, append_assoc]
  exact ends_indentText_append list.beforeSign (by simp; decide)

end BaseList

/-! ## Classes -/

structure ClassLine where
  gap : List IndentToken
  apart : gap ≠ []
  name : CodeWord

namespace ClassLine

variable (line : ClassLine)

def text : Text :=
  "classdef" ++ (indentText line.gap ++ line.name.text)

def tokens : List Token :=
  ⟨.keyword, "classdef"⟩ :: (line.gap.unattach ++ [line.name.token])

theorem lexFrom_text {rest : Text} (ends : EndsWord rest) :
    ∃ before, before ≠ '\n' ∧ lexFrom .code none (line.text ++ rest) =
      line.tokens ++ lexFrom .code (some before) rest := by
  let keyword : CodeWord := ⟨"classdef", by decide⟩
  have gapEnds : EndsWord (indentText line.gap ++ line.name.text ++ rest) := by
    obtain ⟨blank, blanks, gap⟩ := exists_cons_of_ne_nil line.apart
    have starts : ∃ c others, indentText line.gap = c :: others ∧ isWord c = false := by
      rw [gap]
      rcases Token.isIndent_iff.mp blank.property with same | same
      · exact ⟨' ', indentText blanks, by simp [indentText, Token.concat, same], by decide⟩
      · exact ⟨'\t', indentText blanks, by simp [indentText, Token.concat, same], by decide⟩
    obtain ⟨c, others, shape, notWord⟩ := starts
    simpa [shape] using notWord
  have noKeyword : LexRule.functionKeyword none
      (keyword.text ++ (indentText line.gap ++ line.name.text ++ rest)) = none := rfl
  have kind : keyword.kind = .keyword := by decide
  have opened := lexFrom_of_single rfl (keyword.findSome?_text noKeyword gapEnds)
  rw [kind] at opened
  have inLine : 'f' ≠ '\n' := by decide
  have behindGap := getLastD_ne inLine (lineFeed_not_mem_indentText line.gap)
  have named := (lexedAs_indent inLine line.gap _).append (line.name.lexedAs behindGap ends)
  refine ⟨(indentText line.gap ++ line.name.text).getLastD 'f', ?_, ?_⟩
  · rw [getLastD_append]
    exact getLastD_ne behindGap line.name.lineFeed_not_mem_text
  · have regrouped : line.text ++ rest =
        keyword.text ++ (indentText line.gap ++ line.name.text ++ rest) :=
      append_assoc _ _ _
    rw [regrouped, opened, tokens, cons_append, ← named]
    rfl

end ClassLine

namespace ClassState

open Relocation

variable {position : Nat} {definition : ClassDef} {notices : List Notice}

def readBelow (state : ClassState) : Reads ClassState :=
  state.skipIndent >>= readDocstring

theorem readBelow_state {move : Relocation} (state : ClassState) :
    readBelow (move.state state) = move.state <$> move.reads (readBelow state) := by
  simp [readBelow, readDocstring_state]

/-- The notices behind the name of a class: one more if the name is not the expected one. -/
def noticesBehindName (definition : ClassDef) (name : CodeWord) (notices : List Notice) :
    List Notice :=
  if name.token == ⟨.name, definition.name⟩ then notices
  else notices ++ [.unexpectedClassName name.text definition.name definition.module]

variable (gap : List IndentToken)

theorem readHead_named (blanks : List IndentToken) (name : CodeWord) {next : Token}
    (others : List Token) (notIndent : next.isIndent = false) :
    readHead ⟨position, gap.unattach ++ name.token :: (blanks.unattach ++ next :: others),
        definition, notices⟩ =
      let after : ClassState := ⟨position + (gap.length + 1) + blanks.length, next :: others,
        { definition with attributes := {} }, noticesBehindName definition name notices⟩
      if next.isOperator "<" then readBases (after.advance 1) >>= readBelow
      else if next.isNewline then readBelow (after.advance 1)
      else readBelow after := by
  have named : ∀ position rest found,
      (if name.token == ⟨.name, definition.name⟩ then ⟨position, rest, found, notices⟩
        else notify ⟨position, rest, found, notices⟩
          (.unexpectedClassName name.token.value definition.name definition.module)) =
        ⟨position, rest, found, noticesBehindName definition name notices⟩ := by
    intro position rest found
    unfold noticesBehindName
    split <;> rfl
  rw [readHead_eq, readAttributes_blanks gap _ (by simp) (by simp), Reads.ok_bind, readNamed]
  simp only [modify, skipIndent_cons name.isIndent_token, Reads.ok_bind, peek_cons, named,
    advance_one, skipIndent_append_cons blanks notIndent, pure_bind, Nat.add_assoc]
  rfl

theorem readHead_lineEnd (name : CodeWord) (body : List Token) :
    readHead ⟨position, gap.unattach ++ name.token :: feed.val :: body, definition, notices⟩ =
      readBelow ⟨position + (gap.length + 1) + 1, body, { definition with attributes := {} },
        noticesBehindName definition name notices⟩ := by
  have read := @readHead_named position definition notices gap [] name feed.val body
    rfl
  rw [if_neg (by decide), if_pos (by decide)] at read
  exact read

private theorem readHead_bases (name : CodeWord) (list : BaseList) {body : List Token}
    (hasMore : ∃ token ∈ body, isSpacing token = false) :
    readHead ⟨position, gap.unattach ++ name.token :: (list.tokens ++
        feed.val :: body), definition, notices⟩ =
      readBelow ⟨position + (gap.length + 1) + (list.tokens.length + 1), body,
        { definition with attributes := {}, bases := definition.bases ++ list.recorded },
        noticesBehindName definition name notices⟩ := by
  have read := @readHead_named position definition notices gap list.beforeSign name
    ⟨.operator, "<"⟩ (list.nameTokens ++ feed.val :: body) rfl
  have listed := @readBases_links (position + (gap.length + 1) + list.beforeSign.length + 1)
    { definition with attributes := {} } (noticesBehindName definition name notices) list.tail
    list.links list.afterSign list.first.tokens body list.first.not_isSpacing_of_mem_tokens
    list.first.concat_tokens_ne_nil hasMore
  have tokens : list.tokens ++ feed.val :: body = list.beforeSign.unattach ++
      ⟨.operator, "<"⟩ :: (list.nameTokens ++ feed.val :: body) := by
    simp [BaseList.tokens]
  have names : list.nameTokens ++ feed.val :: body = list.afterSign.unattach ++
      (list.first.tokens ++ (list.links.flatMap BaseLink.tokens ++ (list.tail.tokens ++
        feed.val :: body))) := by
    simp [BaseList.nameTokens]
  rw [if_pos (by decide), advance_one, names, listed, Reads.ok_bind] at read
  rw [tokens, names, read, list.first.concat_tokens]
  congr 2
  simp only [BaseList.tokens, BaseList.nameTokens, length_append, length_cons, length_unattach]
  omega

end ClassState

namespace ClassLine

open ClassState Relocation

variable (line : ClassLine) (list : BaseList)

theorem read_bases {body : List Token} (hasMore : ∃ token ∈ body, isSpacing token = false)
    (name module : Text) :
    ClassDef.read name module (line.tokens ++ (list.tokens ++ feed.val :: body)) =
      (ClassDef.read name module (line.tokens ++ feed.val :: body)).map
        (Relocation.definition
          { shift := list.tokens.length
            tokens := line.tokens ++ (list.tokens ++ feed.val :: body)
            bases := fun _ => list.recorded }) := by
  have dropped : ∀ rest, (line.tokens ++ rest).drop 1 =
      line.gap.unattach ++ line.name.token :: rest := by
    simp [tokens]
  -- Behind the first line both readings are at the same tokens.
  have behindLine : 1 + (line.gap.length + 1) + (list.tokens.length + 1) =
      1 + (line.gap.length + 1) + 1 + list.tokens.length := by
    omega
  apply Relocation.read_of_reading_eq
  simp only [dropped]
  rw [readHead_lineEnd, readHead_bases line.gap line.name list hasMore, behindLine]
  have below : ∀ (move : Relocation) (state : ClassState),
      (do readBlocks (← readBelow (move.state state))) =
        move.state <$> move.reads (do readBlocks (← readBelow state)) := by
    simp [readBelow_state, readBlocks_state]
  let plain : ClassDef := { name, module, tokens := line.tokens ++ feed.val :: body }
  exact below ⟨_, line.tokens ++ (list.tokens ++ feed.val :: body), fun _ => list.recorded, id⟩
    ⟨_, body, plain, noticesBehindName plain line.name []⟩

end ClassLine

private theorem exists_token_of_mem {text : Text} {c : Char} (member : c ∈ text)
    (isText : c ∉ [' ', '\t', '\n']) (before : Option Char) :
    ∃ token ∈ lexFrom .code before text, isSpacing token = false := by
  have lossless := (scans_lexFrom .code before text).concat_eq
  rw [← lossless] at member
  obtain ⟨token, inTokens, inValue⟩ := mem_flatMap.mp member
  refine ⟨token, inTokens, Bool.eq_false_iff.mpr fun spacing => isText ?_⟩
  simp only [isSpacing, Bool.and_eq_true, Bool.or_eq_true, beq_iff_eq] at spacing
  rcases spacing.2 with (same | same) | same
  all_goals
    rw [same] at inValue
    simp_all

namespace Definition

/-- A class with base classes on its first line is read like the class whose first line ends behind
its name, up to the base classes and the number of tokens: the next line is read next.  What is
found of the base classes is the list that is written just if a blank stands in front of every `&`
and no comment follows. -/
theorem base_lists_recorded (line : ClassLine) (list : BaseList) {code body : Text}
    (written : normalizeCode (prepareCode code) = line.text ++ (list.text ++ '\n' :: body))
    {c : Char} (inBody : c ∈ body) (isText : c ∉ [' ', '\t', '\n']) (name module : Text) :
    ∃ reading : Reading ClassDef,
      (∀ plain, normalizeCode (prepareCode plain) = line.text ++ '\n' :: body →
        ofCode name module plain = reading.map .class) ∧
      ofCode name module code = (reading.map fun definition =>
        { definition with
          tokens := lex (prepareCode code)
          bases := list.recorded
          index := definition.index.map (· + list.tokens.length) }).map .class ∧
      (list.recorded = list.bases ↔
        (∀ link ∈ list.links, link.before ≠ []) ∧ list.tail.comment = none) := by
  let below := lexFrom .code (some '\n') body
  have isClass : ∀ code rest, lex (prepareCode code) = line.tokens ++ rest → IsClassCode code := by
    intro code rest lexed
    rw [IsClassCode, lexed]
    rfl
  have lexed : lex (prepareCode code) =
      line.tokens ++ (list.tokens ++ feed.val :: below) := by
    obtain ⟨before, inLine, front⟩ := line.lexFrom_text (list.not_isWord_head body)
    rw [lex, written, front, list.lexFrom_text inLine body]
  refine ⟨ClassDef.read name module (line.tokens ++ feed.val :: below), ?_, ?_,
    list.recorded_eq_bases_iff⟩
  · intro plain unextended
    have plainLexed : lex (prepareCode plain) = line.tokens ++ feed.val :: below := by
      obtain ⟨before, inLine, front⟩ := line.lexFrom_text
        (by simp; decide : EndsWord ('\n' :: body))
      rw [lex, unextended, front, lexFrom_lineFeed inLine]
      rfl
    rw [ofCode_of_isClassCode (isClass plain _ plainLexed), plainLexed]
  · have hasMore := exists_token_of_mem inBody isText (some '\n')
    rw [ofCode_of_isClassCode (isClass code _ lexed), lexed, line.read_bases list hasMore]
    rfl

/-- A line on which one base class is found as it is written and three are not. -/
def blurredBases : BaseList where
  beforeSign := []
  afterSign := [.blank]
  first := ⟨⟨"p", Eq.refl true⟩, [⟨"Animal", by decide⟩]⟩
  links :=
    [⟨[.blank], [], ⟨⟨"handle", by decide⟩, []⟩⟩, ⟨[], [], ⟨⟨"Base", by decide⟩, []⟩⟩,
      ⟨[], [.blank], ⟨⟨"Pet", by decide⟩, []⟩⟩]
  tail := ⟨[], some " all", by decide, by decide⟩

def dogLine : ClassLine :=
  ⟨[.blank], by decide, ⟨"Dog", by decide⟩⟩

theorem base_lists_recorded_blurred :
    normalizeCode (prepareCode "classdef Dog< p.Animal &handle&Base& Pet% all\n% A dog.\nend\n") =
      dogLine.text ++ (blurredBases.text ++ '\n' :: "% A dog.\nend\n".toList) ∧
    blurredBases.bases = ["p.Animal", "handle", "Base", "Pet"].map String.toList ∧
    ∃ reading : Reading ClassDef,
      (∀ plain, normalizeCode (prepareCode plain) = dogLine.text ++ "\n% A dog.\nend\n".toList →
        ofCode "Dog" "m" plain = reading.map .class) ∧
      ofCode "Dog" "m" "classdef Dog< p.Animal &handle&Base& Pet% all\n% A dog.\nend\n" =
        (reading.map fun definition =>
          { definition with
            tokens := lex (prepareCode
              "classdef Dog< p.Animal &handle&Base& Pet% all\n% A dog.\nend\n")
            bases := ["p.Animal", "handle&Base&", "Pet% all"].map String.toList
            index := definition.index.map (· + 14) }).map .class := by
  have written : normalizeCode (prepareCode
      "classdef Dog< p.Animal &handle&Base& Pet% all\n% A dog.\nend\n") =
        dogLine.text ++ (blurredBases.text ++ '\n' :: "% A dog.\nend\n".toList) := by
    decide +kernel
  have found : blurredBases.recorded =
      ["p.Animal", "handle&Base&", "Pet% all"].map String.toList := by
    decide
  have length : blurredBases.tokens.length = 14 := by decide
  obtain ⟨reading, plain, read, _⟩ := base_lists_recorded dogLine blurredBases written
    (by decide : 'e' ∈ "% A dog.\nend\n".toList) (by decide) "Dog" "m"
  rw [found, length] at read
  exact ⟨written, by decide, reading, plain, read⟩

def baseNames : Definition → List Text
  | .class definition => definition.bases
  | _ => []

/-- Two base classes are taken for one, and a comment is taken for a base class. -/
theorem base_list_misread :
    (ofCode "A" "p" "classdef A < B & C\nend\n").result.map baseNames = .ok ["B", "C"] ∧
    (ofCode "A" "p" "classdef A < B&C\nend\n").result.map baseNames = .ok ["B&C"] ∧
    (ofCode "A" "p" "classdef A < B % c\nend\n").result.map baseNames = .ok ["B", "% c"] := by
  decide +kernel

end Definition

end MatlabDocs
