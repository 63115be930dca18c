import MatlabDocs.Proofs.Class.AttributeLists
import MatlabDocs.Proofs.Class.ClassFiles

/-!
# Heads of classes as they are laid out

The head of a class in the usual layout is its attributes, its name and its base classes on one
line, and comment lines below.  Such a head is read to the first token that is no part of it.
-/

namespace MatlabDocs

open List ClassState Reads CommentLine

/-- An attribute list, or the blanks in its place.  The list ends with its parenthesis; without
one, the blanks go on to a token that is neither a blank nor a parenthesis. -/
structure AttributePart (known : List Text) where
  tokens : List Token
  isList : Bool
  attributes : Attributes
  isRead : ∀ stop rest,
    (isList = false → stop.isIndent = false ∧ stop.isPunctuation "(" = false) →
    ∀ position definition notices,
      readAttributes known ⟨position, tokens ++ stop :: rest, definition, notices⟩ =
        .ok (attributes, ⟨position + tokens.length, stop :: rest, definition, notices⟩)

def AttributeLayout.part {known : List Text} (layout : AttributeLayout known) :
    AttributePart known where
  tokens := layout.tokens
  isList := layout.list.isSome
  attributes := layout.attributes
  isRead stop rest ends position definition notices := by
    obtain ⟨indent, _ | list⟩ := layout
    · obtain ⟨notIndent, notOpening⟩ := ends rfl
      have tokens : AttributeLayout.tokens ⟨indent, (none : Option (List (BareAttribute known)))⟩ =
          indent.unattach := append_nil _
      rw [tokens, readAttributes_blanks indent rest notIndent notOpening, length_unattach]
      rfl
    · have read := @readAttributes_attributeList known position definition notices
        ⟨indent, [], list.map BareAttribute.item⟩ (stop :: rest)
      rw [AttributeList.tokens, unattach_nil, nil_append, ← BareAttribute.listTokens_eq,
        AttributeList.attributes, map_map] at read
      exact read

theorem ClassState.Consumes.of_attributes {known : List Text} (head : AttributePart known)
    (headEnd : LineEndToken) (opening : Token) {read : ClassState → Reads ClassState}
    (list : Attributes → ClassState → Reads ClassState)
    (inParts : ∀ state, read state =
      (readAttributes known (state.advance 1) >>= fun found => list found.1 found.2))
    {passed tail : List Token} {change : ClassDef → ClassDef}
    (members : Consumes (list head.attributes) (headEnd.val :: passed) tail change) :
    Consumes read (opening :: (head.tokens ++ headEnd.val :: passed)) tail change := by
  intro position definition notices
  have stops := Token.not_isIndent_of_isNewline headEnd.property
  have notOpening : headEnd.val.isPunctuation "(" = false :=
    beq_eq_false_iff_ne.mpr (ne_of_test headEnd.property (by decide))
  have attributes := head.isRead headEnd.val (passed ++ tail) (fun _ => ⟨stops, notOpening⟩)
    (position + 1) definition notices
  have listed := members (position + 1 + head.tokens.length) definition notices
  have regrouped : opening :: (head.tokens ++ headEnd.val :: passed) ++ tail =
      opening :: (head.tokens ++ headEnd.val :: (passed ++ tail)) := by
    simp
  rw [regrouped, inParts, advance_one, attributes, ok_bind, ← cons_append, listed]
  simp only [length_cons, length_append, Except.ok.injEq, mk.injEq, and_true]
  omega

/-- The name of a base class, with the blanks around it. -/
structure BaseLayout where
  before : List IndentToken
  word : List Token
  isWord : ∀ token ∈ word, isSpacing token = false
  hasText : Token.concat word ≠ []
  after : List IndentToken

def BaseLayout.tokens (base : BaseLayout) : List Token :=
  base.before.unattach ++ (base.word ++ base.after.unattach)

def BaseLayout.text (base : BaseLayout) : Text :=
  Token.concat base.word

namespace ClassState

variable {position : Nat} {definition : ClassDef} {notices : List Notice}

theorem count_of_mem {test : Token → Bool} {tokens : List Token}
    (stops : ∃ token ∈ tokens, test token = false) :
    ∃ length, count ⟨position, tokens, definition, notices⟩ test = .ok length := by
  obtain ⟨stop, member, fails⟩ := stops
  have shorter : (tokens.takeWhile test).length < tokens.length := by
    refine Nat.lt_of_le_of_ne (takeWhile_sublist test).length_le fun same => ?_
    have whole := (takeWhile_sublist test).eq_of_length same
    have passes := all_eq_true.mp all_takeWhile stop (whole.symm ▸ member)
    rw [fails] at passes
    cases passes
  exact ⟨(tokens.takeWhile test).length, by simp [count, countWhile?, shorter]⟩

theorem skipIndent_behind_word (blanks : List IndentToken) {stop : Token} (rest : List Token)
    (notIndent : stop.isIndent = false) (ends : blanks = [] → stop.isNewline) :
    ∃ first others, blanks.unattach ++ stop :: rest = first :: others ∧ isSpacing first ∧
      ∀ position definition notices,
        skipIndent (if first.isNewline then ⟨position, first :: others, definition, notices⟩
          else advance ⟨position, first :: others, definition, notices⟩ 1) =
        .ok ⟨position + blanks.length, stop :: rest, definition, notices⟩ := by
  cases blanks with
  | nil =>
    have newline := ends rfl
    refine ⟨stop, rest, rfl, isSpacing_of_isNewline newline, ?_⟩
    intro position definition notices
    rw [if_pos newline]
    exact skipIndent_cons notIndent
  | cons blank blanks =>
    have notNewline : blank.val.isNewline = false := by
      rcases Token.isIndent_iff.mp blank.property with same | same <;> rw [same] <;> decide
    refine ⟨blank.val, blanks.unattach ++ stop :: rest, rfl,
      isSpacing_of_isIndent blank.property, ?_⟩
    intro position definition notices
    rw [if_neg (Bool.eq_false_iff.mp notNewline), advance_one,
      skipIndent_append_cons blanks notIndent, length_cons, Nat.add_assoc, Nat.add_comm 1]

theorem readBases_base (base : BaseLayout) {stop : Token} {rest : List Token}
    (notIndent : stop.isIndent = false) (ends : base.after = [] → stop.isNewline)
    (hasMore : ∃ token ∈ stop :: rest, isSpacing token = false) :
    readBases ⟨position, base.tokens ++ stop :: rest, definition, notices⟩ =
      readBases
        (if stop.isOperator "&" then
          ⟨position + (base.tokens.length + 1), rest,
            { definition with bases := definition.bases ++ [base.text] }, notices⟩
        else ⟨position + base.tokens.length, stop :: rest,
          { definition with bases := definition.bases ++ [base.text] }, notices⟩) := by
  obtain ⟨initial, letters, word⟩ : ∃ initial letters, base.word = initial :: letters :=
    exists_cons_of_ne_nil fun empty => base.hasText (by rw [empty]; rfl)
  obtain ⟨space, others, behind, isSpace, skipped⟩ :=
    skipIndent_behind_word base.after rest notIndent ends
  have notSpacing := base.isWord initial (by simp [word])
  have initialStops : initial.isIndent = false :=
    Bool.eq_false_iff.mpr fun indent => by simp [isSpacing_of_isIndent indent] at notSpacing
  have tokens : base.tokens ++ stop :: rest =
      base.before.unattach ++ initial :: (letters ++ space :: others) := by
    simp [BaseLayout.tokens, word, ← behind]
  obtain ⟨first, notNewline, peeked⟩ := @exists_peek position definition notices
    base.before.unattach (letters ++ space :: others) initial (Token.isNewline · = false)
    (fun token member => by
      rcases Token.isIndent_iff.mp (isIndent_of_mem_unattach _ token member) with rfl | rfl <;>
        decide)
    fun _ => Bool.eq_false_iff.mpr fun newline => by
      simp [isSpacing_of_isNewline newline] at notSpacing
  have start := @skipIndent_append_cons position definition notices (letters ++ space :: others)
    initial base.before initialStops
  rw [← tokens] at peeked start
  rw [← cons_append, ← word] at start
  have run : (base.word ++ space :: others).takeWhile (fun token => !isSpacing token) = base.word :=
    takeWhile_append_cons (fun token member => by simp [base.isWord token member])
      (by simp [isSpace])
  have ended : advance ⟨position + base.before.length, base.word ++ space :: others, definition,
      notices⟩ base.word.length = ⟨position + base.before.length + base.word.length,
        space :: others, definition, notices⟩ :=
    advance_append base.word (space :: others)
  obtain ⟨token, member, isText⟩ := hasMore
  obtain ⟨spaces, counted⟩ := @count_of_mem (position + base.before.length + base.word.length)
    definition notices isSpacing (space :: others)
    ⟨token, behind ▸ mem_append_right _ member, isText⟩
  rw [readBases, peeked, ok_bind, if_neg (Bool.eq_false_iff.mp notNewline), start, ok_bind]
  simp only [run, ended, counted, ok_bind, base.hasText, if_false, peek_cons, modify, skipped]
  have length : position + base.before.length + base.word.length + base.after.length =
      position + base.tokens.length := by
    simp only [BaseLayout.tokens, length_append, length_unattach]
    omega
  have fewer : (stop :: rest).length < (base.tokens ++ stop :: rest).length := by
    simp only [BaseLayout.tokens, word, length_append, length_cons]
    omega
  rw [length]
  by_cases isSign : stop.isOperator "&"
  · rw [if_pos isSign, if_pos isSign, advance_one, progressing_of_lt (Nat.lt_of_succ_lt fewer),
      Nat.add_assoc]
    rfl
  · rw [if_neg isSign, if_neg isSign, progressing_of_lt fewer]
    rfl

end ClassState

structure BasesLayout where
  /-- The base classes that a sign follows. -/
  front : List BaseLayout
  apart : ∀ base ∈ front, base.after ≠ []
  last : BaseLayout

def BasesLayout.tokens (bases : BasesLayout) : List Token :=
  bases.front.flatMap (fun base => base.tokens ++ [⟨.operator, "&"⟩]) ++ bases.last.tokens

def BasesLayout.texts (bases : BasesLayout) : List Text :=
  bases.front.map BaseLayout.text ++ [bases.last.text]

namespace ClassState

variable {position : Nat} {definition : ClassDef} {notices : List Notice}

theorem readBases_last (base : BaseLayout) (lineEnd : LineEndToken) {tail : List Token}
    (hasMore : ∃ token ∈ tail, isSpacing token = false) :
    readBases ⟨position, base.tokens ++ lineEnd.val :: tail, definition, notices⟩ =
      .ok ⟨position + (base.tokens.length + 1), tail,
        { definition with bases := definition.bases ++ [base.text] }, notices⟩ := by
  obtain ⟨token, member, isText⟩ := hasMore
  have notSign : ¬ lineEnd.val.isOperator "&" = true := by
    rcases Token.isNewline_iff.mp lineEnd.property with same | same <;> rw [same] <;> decide
  rw [readBases_base base (Token.not_isIndent_of_isNewline lineEnd.property)
    (fun _ => lineEnd.property) ⟨token, mem_cons_of_mem _ member, isText⟩, if_neg notSign,
    readBases, peek_cons, ok_bind, if_pos lineEnd.property, advance_one, Nat.add_assoc]
  rfl

theorem readBases_layout (bases : BasesLayout) (lineEnd : LineEndToken) {tail : List Token}
    (hasMore : ∃ token ∈ tail, isSpacing token = false) :
    readBases ⟨position, bases.tokens ++ lineEnd.val :: tail, definition, notices⟩ =
      .ok ⟨position + (bases.tokens.length + 1), tail,
        { definition with bases := definition.bases ++ bases.texts }, notices⟩ := by
  obtain ⟨front, apart, last⟩ := bases
  induction front generalizing position definition with
  | nil => exact readBases_last last lineEnd hasMore
  | cons base front ih =>
    have later := @ih (position + (base.tokens.length + 1))
      { definition with bases := definition.bases ++ [base.text] }
      fun base member => apart base (by simp [member])
    obtain ⟨token, member, isText⟩ := hasMore
    have regrouped : (⟨base :: front, apart, last⟩ : BasesLayout).tokens ++ lineEnd.val :: tail =
        base.tokens ++ ⟨.operator, "&"⟩ :: ((⟨front, fun base member =>
          apart base (by simp [member]), last⟩ : BasesLayout).tokens ++ lineEnd.val :: tail) := by
      simp [BasesLayout.tokens]
    rw [regrouped, readBases_base base (by decide)
      (fun empty => absurd empty (apart base (by simp))) ⟨token, by simp [member], isText⟩,
      if_pos (by decide), later]
    simp only [BasesLayout.tokens, BasesLayout.texts, flatMap_cons, map_cons,
      length_append, length_cons, append_assoc, cons_append,
      nil_append, Except.ok.injEq, mk.injEq, and_true]
    omega

private theorem readDocstring_line (line : CommentLine) (below : List Token) :
    readDocstring ⟨position, ⟨.comment, line.comment⟩ :: line.lineEnd.val :: below, definition,
        notices⟩ =
      skipIndent ⟨position + 2, below,
        { definition with docstring := definition.docstring ++ line.text }, notices⟩ >>=
          readDocstring := by
  have isComment : ¬ (!Token.isComment ⟨.comment, line.comment⟩) = true := by
    simp [Token.isComment]
  have noted : (((addDocstring ⟨position, ⟨.comment, line.comment⟩ :: line.lineEnd.val :: below,
      definition, notices⟩ (Token.commentText ⟨.comment, line.comment⟩)).advance 1).addDocstring
        "\n").advance 1 = ⟨position + 2, below,
          { definition with docstring := definition.docstring ++ line.text }, notices⟩ := by
    simp [addDocstring, modify, advance, text, Token.commentText]
  rw [readDocstring, peek_cons, ok_bind, if_neg isComment]
  extract_lets commented
  have peeked : commented.peek = .ok line.lineEnd.val := rfl
  simp only [peeked, ok_bind, line.lineEnd.property, if_true, commented, noted]
  cases skipped : skipIndent ⟨position + 2, below,
      { definition with docstring := definition.docstring ++ line.text }, notices⟩ with
  | error stop => rfl
  | ok after =>
    have shorter := ((skipIndent_yields _).of_ok skipped).1.rest.length_le
    rw [ok_bind, ok_bind, progressing_of_lt]
    exact Nat.lt_of_le_of_lt shorter (by simp only [length_cons]; omega)

theorem readDocstring_lines (lines : List CommentLine) (indent : List IndentToken) {stop : Token}
    (rest : List Token) (notIndent : stop.isIndent = false) (notComment : stop.isComment = false) :
    (skipIndent ⟨position, lines.flatMap tokens ++ (indent.unattach ++ stop :: rest),
        definition, notices⟩ >>= readDocstring) =
      .ok ⟨position + ((lines.flatMap tokens).length + indent.length), stop :: rest,
        { definition with
          docstring := definition.docstring ++ lines.flatMap text }, notices⟩ := by
  induction lines generalizing position definition with
  | nil =>
    have returns : (!stop.isComment) = true := by rw [notComment]; rfl
    rw [flatMap_nil, nil_append, skipIndent_append_cons indent notIndent,
      ok_bind, readDocstring, peek_cons, ok_bind, if_pos returns]
    simp [pure, Except.pure]
  | cons line lines ih =>
    have regrouped : (line :: lines).flatMap tokens ++
        (indent.unattach ++ stop :: rest) = line.indent.unattach ++
          ⟨.comment, line.comment⟩ :: (line.lineEnd.val ::
            (lines.flatMap tokens ++ (indent.unattach ++ stop :: rest))) := by
      simp [tokens]
    rw [regrouped, skipIndent_append_cons line.indent (by simp [Token.isIndent]), ok_bind,
      readDocstring_line, ih]
    simp only [flatMap_cons, tokens, length_append, length_unattach,
      length_cons, length_nil, append_assoc, Except.ok.injEq,
      mk.injEq, and_true]
    omega

end ClassState

/-- The parts of a head in the order in which they stand, up to the indentation of the line
below. -/
structure HeadLayout where
  attributes : AttributePart ClassDef.classAttributes
  beforeName : List IndentToken
  /-- Without an attribute list, the blanks in its place stand in front of the name. -/
  tight : attributes.isList = false → beforeName = []
  name : Text
  afterName : List IndentToken
  bases : Option BasesLayout
  lineEnd : LineEndToken
  comments : List CommentLine
  indent : List IndentToken

namespace HeadLayout

variable (layout : HeadLayout)

def signTokens : List Token :=
  match layout.bases with
  | none => []
  | some bases => ⟨.operator, "<"⟩ :: bases.tokens

def lowerTokens : List Token :=
  layout.comments.flatMap tokens ++ layout.indent.unattach

def tokens : List Token :=
  layout.attributes.tokens ++ (layout.beforeName.unattach ++ ⟨.name, layout.name⟩ ::
    (layout.afterName.unattach ++ (layout.signTokens ++ layout.lineEnd.val :: layout.lowerTokens)))

def baseTexts : List Text :=
  (layout.bases.map BasesLayout.texts).getD []

def docstring : Text :=
  layout.comments.flatMap text

end HeadLayout

namespace ClassState

variable {position : Nat} {definition : ClassDef} {notices : List Notice} (layout : HeadLayout)

theorem readAttributes_head (rest : List Token) :
    (readAttributes ClassDef.classAttributes ⟨position, layout.attributes.tokens ++
        (layout.beforeName.unattach ++ ⟨.name, layout.name⟩ :: rest), definition, notices⟩) =
      .ok (layout.attributes.attributes, ⟨position + layout.attributes.tokens.length,
        layout.beforeName.unattach ++ ⟨.name, layout.name⟩ :: rest, definition, notices⟩) := by
  cases before : layout.beforeName with
  | nil =>
    exact layout.attributes.isRead _ _
      (fun _ => ⟨by simp [Token.isIndent], by simp [Token.isPunctuation]⟩) _ _ _
  | cons blank blanks =>
    refine layout.attributes.isRead _ _ (fun noList => ?_) _ _ _
    have tight := layout.tight noList
    rw [before] at tight
    cases tight

theorem readHead_line {tail : List Token} (hasMore : ∃ token ∈ tail, isSpacing token = false) :
    ∃ next others, layout.signTokens ++ layout.lineEnd.val :: tail = next :: others ∧
      next.isIndent = false ∧
      ∀ position definition notices (finish : ClassState → Reads ClassState),
        (if next.isOperator "<" then
          readBases ⟨position + 1, others, definition, notices⟩ >>= finish
        else if next.isNewline then finish ⟨position + 1, others, definition, notices⟩
        else finish ⟨position, next :: others, definition, notices⟩) =
          finish ⟨position + (layout.signTokens.length + 1), tail,
            { definition with bases := definition.bases ++ layout.baseTexts }, notices⟩ := by
  cases bases : layout.bases with
  | none =>
    have notSign : ¬ layout.lineEnd.val.isOperator "<" = true := by
      rcases Token.isNewline_iff.mp layout.lineEnd.property with same | same <;>
        rw [same] <;> decide
    refine ⟨layout.lineEnd.val, tail, by simp [HeadLayout.signTokens, bases],
      Token.not_isIndent_of_isNewline layout.lineEnd.property, ?_⟩
    intro position definition notices finish
    rw [if_neg notSign, if_pos layout.lineEnd.property]
    simp [HeadLayout.signTokens, HeadLayout.baseTexts, bases]
  | some list =>
    refine ⟨⟨.operator, "<"⟩, list.tokens ++ layout.lineEnd.val :: tail,
      by simp [HeadLayout.signTokens, bases], by decide, ?_⟩
    intro position definition notices finish
    rw [if_pos (by decide), readBases_layout list layout.lineEnd hasMore, ok_bind]
    simp [HeadLayout.signTokens, HeadLayout.baseTexts, bases, Nat.add_assoc, Nat.add_comm 1]

private theorem readHead_layout {tail : List Token} (ends : EndsHead tail)
    (isNamed : definition.name = layout.name) :
    readHead ⟨position, layout.tokens ++ tail, definition, notices⟩ =
      .ok ⟨position + layout.tokens.length, tail,
        { definition with
          attributes := layout.attributes.attributes
          bases := definition.bases ++ layout.baseTexts
          docstring := definition.docstring ++ layout.docstring }, notices⟩ := by
  obtain ⟨⟨stop, rest, rfl, notIndent, notComment⟩, token, member, isText⟩ := ends
  obtain ⟨next, others, line, nextStops, signed⟩ := readHead_line layout
    (⟨token, by simp [HeadLayout.lowerTokens, member], isText⟩ :
      ∃ token ∈ layout.lowerTokens ++ stop :: rest, isSpacing token = false)
  have regrouped : layout.tokens ++ stop :: rest = layout.attributes.tokens ++
      (layout.beforeName.unattach ++ ⟨.name, layout.name⟩ ::
        (layout.afterName.unattach ++ next :: others)) := by
    simp [HeadLayout.tokens, ← line]
  have nameStops : Token.isIndent ⟨.name, layout.name⟩ = false := by simp [Token.isIndent]
  rw [regrouped, readHead, readAttributes_head, ok_bind]
  simp only [modify, skipIndent_append_cons layout.beforeName nameStops, ok_bind, peek_cons,
    isNamed, beq_self_eq_true, if_true, advance_one,
    skipIndent_append_cons layout.afterName nextStops, pure_bind]
  refine (signed _ _ _ fun state => state.skipIndent >>= readDocstring).trans ?_
  rw [HeadLayout.lowerTokens, append_assoc,
    readDocstring_lines layout.comments layout.indent rest notIndent notComment]
  simp only [HeadLayout.tokens, HeadLayout.lowerTokens, HeadLayout.docstring, length_append,
    length_cons, length_unattach, Except.ok.injEq, mk.injEq, and_true]
  omega

end ClassState

def HeadLayout.part (layout : HeadLayout) : HeadPart where
  name := layout.name
  tokens := layout.tokens
  attributes := layout.attributes.attributes
  bases := layout.baseTexts
  docstring := layout.docstring
  isRead _ ends _ _ _ isNamed := readHead_layout layout ends isNamed

namespace HeadLayout

variable (blank : IndentToken) (name : Text) (lineEnd : LineEndToken)

def bare : HeadLayout where
  attributes := (⟨[blank], none⟩ : AttributeLayout ClassDef.classAttributes).part
  beforeName := []
  tight _ := rfl
  name
  afterName := []
  bases := none
  lineEnd
  comments := []
  indent := []

theorem tokens_bare : (bare blank name lineEnd).tokens = [blank.val, ⟨.name, name⟩, lineEnd.val] :=
  rfl

end HeadLayout

variable (blank : IndentToken) (name : Text) (lineEnd : LineEndToken) (blocks : List BlockPart)

def ClassFile.bare : ClassFile where
  head := (HeadLayout.bare blank name lineEnd).part
  lead := []
  commentary := nofun
  apart := nofun
  blocks
  rest := []

theorem ClassFile.read_bare (module : Text) :
    let tokens := ⟨.keyword, "classdef"⟩ :: blank.val :: ⟨.name, name⟩ :: lineEnd.val ::
      (blocks.flatMap BlockPart.tokens ++ [Token.ending])
    ClassDef.read name module tokens =
      ⟨.ok { name, module, tokens
             properties := BlockPart.enterAll blocks {}
             methods := Table.ofList (BlockPart.allEntries blocks module)
             index := some (tokens.length - 1) }, []⟩ := by
  intro tokens
  have read := (bare blank name lineEnd blocks).read_tokens module
  have length : 1 + (bare blank name lineEnd blocks).head.tokens.length +
      (bare blank name lineEnd blocks).bodyTokens.length = tokens.length - 1 := by
    simp only [tokens, bare, bodyTokens, HeadLayout.part, HeadLayout.tokens_bare, nil_append,
      length_cons, length_append, length_nil]
    omega
  rw [definition, length] at read
  exact read

end MatlabDocs
