import MatlabDocs.Proofs.Class.DefaultValues

/-!
# Declarations of properties as they are laid out

A declaration in the usual layout is a number of comment lines and a line with the name of
the property, its default value and a comment.  Such a declaration is read to the first token
of the next one, and its parts are found in the property that it enters.  A comment right at the
start of the line below a value belongs to the declaration with that value.
-/

namespace MatlabDocs

open List CommentLine

/-- The parts of a declaration in the order in which they stand. -/
structure DeclarationLayout where
  /-- White space above the declaration. -/
  before : List Token
  spaced : ∀ token ∈ before, ClassState.isSpacing token
  comments : List CommentLine
  indent : List IndentToken
  name : Text
  value : Option DefaultLayout
  blanks : List IndentToken
  /-- The line end in front of the comment, if this stands below the value. -/
  below : Option LineEndToken
  comment : Option Text
  lineEnd : LineEndToken
  /-- Only blanks are taken off the end of a value. -/
  blanksBehindValue : value.isSome → ∀ blank ∈ blanks, blank.val.value = " "
  /-- An ellipsis behind a value would join the next line to it. -/
  endsBehindValue : value.isSome → below = none → ∀ text ∈ comment, text.startsWith "..." = false
  /-- A line end that is text would count as a part of the declaration. -/
  endsBehindName : value = none → comment = none → lineEnd.val.kind = .whitespace
  /-- Below a name without a value, a comment would belong to the next declaration. -/
  belowValue : below.isSome → value.isSome ∧ comment.isSome

namespace DeclarationLayout

variable (layout : DeclarationLayout)

def commentTokens : List Token :=
  match layout.comment with
  | none => []
  | some text => [⟨.comment, text⟩]

def valueTokens : List Token :=
  match layout.value with
  | none => []
  | some value => value.lineTokens

def endTokens : List Token :=
  layout.valueTokens ++ (layout.blanks.unattach ++ (layout.below.toList.unattach ++
    (layout.commentTokens ++ [layout.lineEnd.val])))

def tokens : List Token :=
  layout.before ++ (layout.comments.flatMap CommentLine.tokens ++
    (layout.indent.unattach ++ ⟨.name, layout.name⟩ :: layout.endTokens))

/-- A comment right below would be taken for the one behind the value. -/
def takesComment : Bool :=
  layout.value.isSome && layout.comment.isNone

def startsWithComment : Bool :=
  layout.before.isEmpty && layout.comments.head?.any (·.indent.isEmpty)

def completed (property : PropertyDef) : PropertyDef :=
  { property with
    default? := some (layout.value.map DefaultLayout.text)
    docstring? := some (property.docstring?.getD (layout.comment.map (·.dropWhile (· == '%')))) }

variable (attributes : Attributes) (properties : NameTable PropertyDef)

/-- The comment lines enter their property anew; otherwise it may have been declared before. -/
def entered : PropertyDef :=
  match layout.comments with
  | [] => (properties.get? layout.name).getD { attributes }
  | lines => { attributes, docstring? := some (some (lines.flatMap text)) }

def enter : NameTable PropertyDef :=
  properties.insert layout.name (layout.completed (layout.entered attributes properties))

theorem below_eq_none (missing : layout.value = none ∨ layout.comment = none) :
    layout.below = none := by
  cases below : layout.below with
  | none => rfl
  | some lineEnd =>
    obtain ⟨valued, commented⟩ := layout.belowValue (by simp [below])
    rcases missing with bare | uncommented
    · simp [bare] at valued
    · simp [uncommented] at commented

end DeclarationLayout

namespace ClassState

variable {position : Nat} {definition : ClassDef} {notices : List Notice}
variable {rest : List Token} {stop token : Token} {state : ClassState} (attributes : Attributes)

variable {value : Option Text} {property : PropertyDef} (layout : DeclarationLayout)

theorem readPropertyEnd_of_value {name : Text} {start valued : ClassState}
    (skipped : state.skipIndent = .ok start)
    (read : readDefaultValue start = .ok (some value, valued))
    (entered : valued.property? name = some property) (peeked : valued.peek = .ok token) :
    readPropertyEnd name state =
      let found := if token.isComment then some token.commentText else none
      let documented := valued.setProperty name
        { property with
          default? := some value, docstring? := some (property.docstring?.getD found) }
      (if token.isComment then documented.advance 1 else documented).skipSpacing := by
  have updated : ∀ changed, (valued.setProperty name changed).peek = .ok token := by
    cases rest : valued.rest <;> simp_all [peek, halt, setProperty, modify]
  obtain ⟨attributes, default?, docstring?⟩ := property
  rw [readPropertyEnd]
  simp only [skipped, Reads.ok_bind, read, updateProperty, entered, property?_setProperty, updated,
    Option.any_some, setProperty_setProperty]
  cases docstring? with
  | none => rfl
  | some docstring => rfl

theorem not_isComment_of_isSpacing (spacing : isSpacing token) : token.isComment = false := by
  obtain ⟨kind, value⟩ := token
  simp only [isSpacing, Bool.and_eq_true, Bool.or_eq_true, beq_iff_eq] at spacing
  rcases spacing.1 with rfl | rfl <;> rfl

theorem readDefaultValue_lineEnd (value : DefaultLayout) {blanks : List IndentToken}
    (spaces : ∀ blank ∈ blanks, blank.val.value = " ") (lineEnd : LineEndToken) :
    readDefaultValue ⟨position, ⟨.punctuation, "="⟩ :: (value.valueTokens ++
        (blanks.unattach ++ lineEnd.val :: rest)), definition, notices⟩ =
      .ok (some (some value.text),
        ⟨position + (1 + value.valueTokens.length + blanks.length + 1), rest, definition,
          notices⟩) := by
  have notComment : lineEnd.val.isComment = false :=
    not_isComment_of_isSpacing (lineEnd.isSpacing_of_mem _ (by simp))
  have notEllipsis : isEllipsis lineEnd.val = false := by simp [isEllipsis, notComment]
  rw [readDefaultValue_layout value spaces (.inl lineEnd.property) notEllipsis, notComment]
  rfl

theorem readPropertyEnd_comment {start : ClassState} {spacing : List Token}
    (skipped : state.skipIndent = .ok start)
    (read : readDefaultValue start = .ok (some value,
      ⟨position, layout.commentTokens ++ (spacing ++ stop :: rest), definition, notices⟩))
    (entered : definition.properties.get? layout.name = some property)
    (isSpaced : ∀ token ∈ spacing, isSpacing token) (notSpacing : isSpacing stop = false)
    (apart : spacing ≠ [] ∨ stop.isComment = false) :
    readPropertyEnd layout.name state =
      .ok ⟨position + (layout.commentTokens.length + spacing.length), stop :: rest,
        { definition with
          properties := definition.properties.insert layout.name
            { property with
              default? := some value
              docstring? := some (property.docstring?.getD
                (layout.comment.map (·.dropWhile (· == '%')))) } },
        notices⟩ := by
  cases comment : layout.comment with
  | some text =>
    have tokens : layout.commentTokens = [⟨.comment, text⟩] := by
      simp [DeclarationLayout.commentTokens, comment]
    rw [tokens] at read ⊢
    rw [readPropertyEnd_of_value skipped read entered rfl]
    show skipSpacing ⟨position + 1, spacing ++ stop :: rest, _, notices⟩ = _
    rw [skipSpacing, skip_append_cons isSpaced notSpacing, Nat.add_assoc]
    rfl
  | none =>
    have tokens : layout.commentTokens = [] := by
      simp [DeclarationLayout.commentTokens, comment]
    rw [tokens, nil_append] at read
    obtain ⟨first, notComment, peeked⟩ := @exists_peek position definition notices spacing rest
      stop _ (fun token member => not_isComment_of_isSpacing (isSpaced token member))
      fun empty => apart.resolve_left (absurd empty)
    rw [readPropertyEnd_of_value skipped read entered peeked]
    simp only [notComment, Bool.false_eq_true, if_false, tokens, length_nil, Nat.zero_add]
    show skipSpacing ⟨position, spacing ++ stop :: rest, _, notices⟩ = _
    rw [skipSpacing, skip_append_cons isSpaced notSpacing]
    rfl

theorem isSpecifier_of_mem_unattach (indent : List IndentToken) :
    ∀ token ∈ indent.unattach, isSpecifier token := by
  intro token member
  rcases Token.isIndent_iff.mp (isIndent_of_mem_unattach indent token member) with rfl | rfl <;>
    decide

theorem readDefaultValue_bare (notEquals : stop.isPunctuation "=" = false) :
    readDefaultValue ⟨position, stop :: rest, definition, notices⟩ =
      .ok (some none, ⟨position, stop :: rest, definition, notices⟩) := by
  rw [readDefaultValue, peek_cons, Reads.ok_bind, notEquals]
  rfl

/-- What stands behind the name of a declaration completes the property, up to the token behind the
gap. -/
def EndsLayout (property : PropertyDef) (gap rest : List Token)
    (stop : Token) (position : Nat) (definition : ClassDef) (notices : List Notice) : Prop :=
  readSpecified layout.name
      ⟨position, layout.endTokens ++ (gap ++ stop :: rest), definition, notices⟩ =
    .ok (.next layout.name ⟨position + (layout.endTokens.length + gap.length), stop :: rest,
      { definition with
        properties := definition.properties.insert layout.name (layout.completed property) },
      notices⟩)

section

open DeclarationLayout

variable (layout : DeclarationLayout) {property : PropertyDef} {gap : List Token}
  (entered : definition.properties.get? layout.name = some property)
  (isSpaced : ∀ token ∈ gap, isSpacing token) (notSpacing : isSpacing stop = false)
include entered isSpaced notSpacing

omit isSpaced in
theorem endsDeclaration_of_read (blanks : List IndentToken) {sign : Token}
    {spacing more : List Token} {place : Nat}
    (tokens : layout.endTokens ++ (gap ++ stop :: rest) = blanks.unattach ++ sign :: more)
    (traits : isSpecifier sign = false ∧ sign.isIndent = false ∧ sign.isPunctuation ";" = false)
    (read : readDefaultValue
        ⟨position + blanks.unattach.length, sign :: more, definition, notices⟩ =
      .ok (some (layout.value.map DefaultLayout.text),
        ⟨place, layout.commentTokens ++ (spacing ++ stop :: rest), definition, notices⟩))
    (spaced : ∀ token ∈ spacing, isSpacing token)
    (apart : spacing ≠ [] ∨ stop.isComment = false)
    (length : place + (layout.commentTokens.length + spacing.length) =
      position + (layout.endTokens.length + gap.length)) :
    EndsLayout layout property gap rest stop position definition notices := by
  obtain ⟨notSpecifier, notIndent, notSemicolon⟩ := traits
  rw [EndsLayout, tokens, readSpecified,
    pass_append_cons (isSpecifier_of_mem_unattach blanks) notSpecifier, Reads.ok_bind, peek_cons,
    Reads.ok_bind, notSemicolon, readPropertyEnd_comment layout (skipIndent_cons notIndent) read
      entered spaced notSpacing apart, length]
  rfl

theorem endsDeclaration_bare (bare : layout.value = none) :
    EndsLayout layout property gap rest stop position definition notices := by
  have notBelow := layout.below_eq_none (.inl bare)
  have lineSpaced : ∀ token ∈ layout.lineEnd.val :: gap, isSpacing token :=
    forall_mem_cons.mpr ⟨layout.lineEnd.isSpacing_of_mem _ (by simp), isSpaced⟩
  obtain ⟨sign, more, shape, traits, notEquals⟩ :
      ∃ sign more, layout.commentTokens ++ (layout.lineEnd.val :: gap ++ stop :: rest) =
        sign :: more ∧ (isSpecifier sign = false ∧ sign.isIndent = false ∧
          sign.isPunctuation ";" = false) ∧ sign.isPunctuation "=" = false := by
    cases comment : layout.comment with
    | some text =>
      refine ⟨⟨.comment, text⟩, layout.lineEnd.val :: gap ++ stop :: rest, ?_, ?_⟩
      · simp [commentTokens, comment]
      · simp [isSpecifier, Token.isIndent, Token.isPunctuation]
    | none =>
      refine ⟨layout.lineEnd.val, gap ++ stop :: rest, ?_, ?_⟩
      · simp [commentTokens, comment]
      · have whitespace := layout.endsBehindName bare comment
        rcases Token.isNewline_iff.mp layout.lineEnd.property with same | same
        · rw [same] at whitespace
          cases whitespace
        · rw [same]
          decide
  have tokens : layout.endTokens ++ (gap ++ stop :: rest) =
      layout.blanks.unattach ++ sign :: more := by
    rw [← shape]
    simp [endTokens, valueTokens, bare, notBelow]
  have read := @readDefaultValue_bare (position + layout.blanks.unattach.length) definition notices
    more sign notEquals
  refine endsDeclaration_of_read layout entered notSpacing layout.blanks tokens traits
    (by rw [bare, shape]; exact read) lineSpaced (.inl (by simp)) ?_
  simp only [endTokens, valueTokens, bare, notBelow, Option.toList_none, unattach_nil,
    length_append, length_cons, length_nil]
  omega

/-- Behind a value and its blanks stands a comment, a line end with a comment right below, or a
line end alone. -/
private theorem endsDeclaration_valued {value : DefaultLayout} (valued : layout.value = some value)
    (apart : layout.takesComment → gap ≠ [] ∨ stop.isComment = false) :
    EndsLayout layout property gap rest stop position definition notices := by
  have lineSpaced : ∀ token ∈ layout.lineEnd.val :: gap, isSpacing token :=
    forall_mem_cons.mpr ⟨layout.lineEnd.isSpacing_of_mem _ (by simp), isSpaced⟩
  have spaces := layout.blanksBehindValue (by simp [valued])
  have traits : isSpecifier ⟨.punctuation, "="⟩ = false ∧
      Token.isIndent ⟨.punctuation, "="⟩ = false ∧
      Token.isPunctuation ⟨.punctuation, "="⟩ ";" = false := by decide
  have total : layout.endTokens.length = value.beforeEquals.unattach.length + 1 +
      value.valueTokens.length + layout.blanks.length + layout.below.toList.length +
      layout.commentTokens.length + 1 := by
    simp only [endTokens, valueTokens, valued,
      DefaultLayout.lineTokens, length_append, length_cons, length_nil,
      length_unattach]
    omega
  -- What is found behind the line of the value decides who has the comment.
  cases comment : layout.comment with
  | none =>
    have noComment : layout.commentTokens = [] := by
      simp [commentTokens, comment]
    have notBelow := layout.below_eq_none (.inr comment)
    have takes : layout.takesComment := by
      simp [takesComment, valued, comment]
    refine endsDeclaration_of_read layout entered notSpacing value.beforeEquals ?_ traits
      (by rw [valued, noComment]; exact readDefaultValue_lineEnd value spaces layout.lineEnd)
      isSpaced (apart takes) ?_
    · simp [endTokens, valueTokens, valued, noComment, notBelow, DefaultLayout.lineTokens]
    · simp only [total, noComment, notBelow, Option.toList_none, length_nil]
      omega
  | some text =>
    have isComment : layout.commentTokens = [⟨.comment, text⟩] := by
      simp [commentTokens, comment]
    cases below : layout.below with
    | none =>
      have notEllipsis : isEllipsis ⟨.comment, text⟩ = false :=
        layout.endsBehindValue (by simp [valued]) below text comment
      refine endsDeclaration_of_read layout entered notSpacing value.beforeEquals ?_ traits
        (by
          rw [valued, isComment]
          exact readDefaultValue_layout value spaces (.inr rfl) notEllipsis)
        lineSpaced (.inl (by simp)) ?_
      · simp [endTokens, valueTokens, valued, isComment, below, DefaultLayout.lineTokens]
      · simp only [total, isComment, below, Option.toList_none, length_cons, length_nil]
        omega
    | some lineEnd =>
      refine endsDeclaration_of_read layout entered notSpacing value.beforeEquals ?_ traits
        (by rw [valued]; exact readDefaultValue_lineEnd value spaces lineEnd) lineSpaced
        (.inl (by simp)) ?_
      · simp [endTokens, valueTokens, valued, below, DefaultLayout.lineTokens]
      · simp only [total, isComment, below, Option.toList_some, length_cons, length_nil]
        omega

theorem endsDeclaration_layout (apart : layout.takesComment → gap ≠ [] ∨ stop.isComment = false) :
    EndsLayout layout property gap rest stop position definition notices := by
  cases value : layout.value with
  | none => exact endsDeclaration_bare layout entered isSpaced notSpacing value
  | some _ => exact endsDeclaration_valued layout entered isSpaced notSpacing value apart

end

private theorem readPropertyComment_line (name docstring : Text) (line : CommentLine)
    (indent : List IndentToken) (notIndent : stop.isIndent = false)
    (notNewline : stop.isNewline = false) :
    readPropertyComment attributes name docstring
        ⟨position, ⟨.comment, line.comment⟩ :: line.lineEnd.val ::
          (indent.unattach ++ stop :: rest), definition, notices⟩ =
      let start : ClassState := ⟨position + (2 + indent.length), stop :: rest, definition, notices⟩
      if stop.kind == .name then
        .ok (stop.value, start.setProperty stop.value
          { attributes, docstring? := some (some (docstring ++ line.text)) })
      else readPropertyComment attributes name (docstring ++ line.text) start := by
  have isComment : Token.isComment ⟨.comment, line.comment⟩ = true := rfl
  have endStops := Token.not_isIndent_of_isNewline line.lineEnd.property
  have skipped := @skipIndent_append_cons (position + 1 + 1) definition notices rest stop indent
    notIndent
  have place : position + 1 + 1 + indent.length = position + (2 + indent.length) := by omega
  have ended : readCommentEnd (docstring ++ Token.commentText ⟨.comment, line.comment⟩)
      ⟨position + 1, line.lineEnd.val :: (indent.unattach ++ stop :: rest), definition, notices⟩ =
      .ok (.ok (docstring ++ line.text,
        ⟨position + (2 + indent.length), stop :: rest, definition, notices⟩)) := by
    rw [readCommentEnd, peek_cons, Reads.ok_bind, if_pos line.lineEnd.property]
    simp only [advance_one, skipped, place, text, ← append_assoc]
    rfl
  rw [readPropertyComment]
  simp only [peek_cons, Reads.ok_bind, isComment, Bool.not_true, Bool.false_eq_true, if_false,
    advance_one, skipIndent_cons endStops, ended, notNewline]
  by_cases isName : stop.kind == .name
  · rw [if_pos isName, if_pos isName]
    rfl
  · rw [if_neg isName, if_neg isName, progressing_of_lt]
    simp only [length_cons, length_append]
    omega

/-- Comment lines are read up to the token behind them, and enter the property of that name. -/
theorem readPropertyComment_above (name : Text) (line : CommentLine) (lines : List CommentLine)
    (indent : List IndentToken) (docstring : Text) (notIndent : stop.isIndent = false)
    (notNewline : stop.isNewline = false) (notComment : stop.isComment = false) :
    readPropertyComment attributes name docstring
        ⟨position, ⟨.comment, line.comment⟩ :: line.lineEnd.val ::
          (lines.flatMap tokens ++ (indent.unattach ++ stop :: rest)), definition,
          notices⟩ =
      let start : ClassState :=
        ⟨position + (2 + (lines.flatMap tokens).length + indent.length),
          stop :: rest, definition, notices⟩
      if stop.kind == .name then
        .ok (stop.value, start.setProperty stop.value
          { attributes
            docstring? := some (some (docstring ++ (line :: lines).flatMap text)) })
      else .ok (name, start) := by
  induction lines generalizing line docstring position with
  | nil =>
    have passed : ∀ docstring position, readPropertyComment attributes name docstring
        ⟨position, stop :: rest, definition, notices⟩ =
          .ok (name, ⟨position, stop :: rest, definition, notices⟩) := by
      intro docstring position
      rw [readPropertyComment, peek_cons, Reads.ok_bind, if_pos (by simp [notComment])]
      rfl
    rw [flatMap_nil, nil_append, readPropertyComment_line attributes name docstring
      line indent notIndent notNewline]
    simp [passed]
  | cons next lines ih =>
    have regrouped : (next :: lines).flatMap tokens ++
        (indent.unattach ++ stop :: rest) = next.indent.unattach ++
          ⟨.comment, next.comment⟩ :: next.lineEnd.val :: (lines.flatMap tokens ++
            (indent.unattach ++ stop :: rest)) := by
      simp [tokens]
    rw [regrouped, readPropertyComment_line attributes name docstring line next.indent
      (by simp [Token.isIndent]) (by simp [Token.isNewline])]
    have notName : ¬ ((TokenKind.comment == TokenKind.name) = true) := by decide
    have place : position + (2 + next.indent.length) +
        (2 + (lines.flatMap tokens).length + indent.length) =
        position + (2 + ((next :: lines).flatMap tokens).length + indent.length) := by
      simp only [flatMap_cons, length_append, tokens, length_unattach, length_cons, length_nil]
      omega
    rw [if_neg notName, ih, place, append_assoc, flatMap_cons (x := line)]

theorem isSpacing_of_mem_unattach (indent : List IndentToken) :
    ∀ token ∈ indent.unattach, isSpacing token := by
  intro token member
  rcases Token.isIndent_iff.mp (isIndent_of_mem_unattach indent token member) with rfl | rfl <;>
    decide

end ClassState

open ClassState

/-- A declaration up to the name of its property. -/
structure DeclarationStart where
  /-- White space above the declaration. -/
  before : List Token
  spaced : ∀ token ∈ before, isSpacing token
  comments : List CommentLine
  indent : List IndentToken
  token : Token
  isName : token.kind == .name || token.kind == .builtinName || token.kind == .functionName

namespace DeclarationStart

variable (start : DeclarationStart)

def gap : List Token :=
  match start.comments with
  | [] => start.before ++ start.indent.unattach
  | line :: _ => start.before ++ line.indent.unattach

def inner : List Token :=
  match start.comments with
  | [] => []
  | line :: lines => ⟨.comment, line.comment⟩ :: line.lineEnd.val ::
      (lines.flatMap CommentLine.tokens ++ start.indent.unattach)

def tokens : List Token :=
  start.gap ++ (start.inner ++ [start.token])

def first : Token :=
  match start.comments with
  | [] => start.token
  | line :: _ => ⟨.comment, line.comment⟩

variable (attributes : Attributes) (properties : NameTable PropertyDef)

def commented : NameTable PropertyDef :=
  match start.comments with
  | [] => properties
  | lines =>
    if start.token.kind == .name then
      properties.insert start.token.value
        { attributes, docstring? := some (some (lines.flatMap CommentLine.text)) }
    else properties

def declared : NameTable PropertyDef :=
  let commented := start.commented attributes properties
  if start.token.kind != .name || (commented.get? start.token.value).isNone then
    commented.insert start.token.value { attributes }
  else commented

def endedBare : NameTable PropertyDef :=
  let declared := start.declared attributes properties
  let property := (declared.get? start.token.value).getD { attributes }
  declared.insert start.token.value
    { property with default? := some none, docstring? := some (property.docstring?.getD none) }

theorem isSpacing_of_mem_gap : ∀ token ∈ start.gap, isSpacing token := by
  unfold gap
  split <;> exact forall_mem_append.mpr ⟨start.spaced, isSpacing_of_mem_unattach _⟩

theorem token_is_plain : isSpacing start.token = false ∧
    start.token.isIndent = false ∧ start.token.isNewline = false ∧
    start.token.isComment = false ∧ start.token.isKeyword "end" = false := by
  obtain ⟨_, _, _, _, ⟨kind, value⟩, isName⟩ := start
  simp only [Bool.or_eq_true, beq_iff_eq] at isName
  rcases isName with (rfl | rfl) | rfl <;>
    simp [isSpacing, Token.isIndent, Token.isNewline, Token.isComment, Token.isKeyword]

theorem exists_inner_append (rest : List Token) :
    ∃ others, start.inner ++ start.token :: rest = start.first :: others := by
  unfold inner first
  cases start.comments with
  | nil => exact ⟨rest, rfl⟩
  | cons line lines => exact ⟨_, rfl⟩

theorem first_is_plain : isSpacing start.first = false ∧ start.first.isKeyword "end" = false := by
  unfold first
  split
  · exact ⟨start.token_is_plain.1, start.token_is_plain.2.2.2.2⟩
  · exact ⟨by simp [isSpacing], by simp [Token.isKeyword]⟩

theorem exists_get?_declared :
    ∃ property, (start.declared attributes properties).get? start.token.value = some property := by
  unfold declared
  dsimp only
  split
  · exact ⟨{ attributes }, by simp⟩
  · rename_i known
    rw [Bool.or_eq_true, not_or] at known
    exact Option.ne_none_iff_exists'.mp (by simpa using known.2)

end DeclarationStart

namespace DeclarationLayout

variable (layout : DeclarationLayout)

def start : DeclarationStart :=
  ⟨layout.before, layout.spaced, layout.comments, layout.indent, ⟨.name, layout.name⟩, rfl⟩

theorem tokens_eq_start_append : layout.tokens = layout.start.tokens ++ layout.endTokens := by
  cases comments : layout.comments with
  | nil =>
    simp [tokens, start, DeclarationStart.tokens, DeclarationStart.gap, DeclarationStart.inner,
      comments]
  | cons line lines =>
    simp [tokens, start, DeclarationStart.tokens, DeclarationStart.gap, DeclarationStart.inner,
      comments, CommentLine.tokens]

theorem gap_ne_nil_or_not_isComment (apart : layout.startsWithComment = false) :
    layout.start.gap ≠ [] ∨ layout.start.first.isComment = false := by
  cases comments : layout.comments with
  | nil => exact .inr (by simp [start, DeclarationStart.first, comments, Token.isComment])
  | cons line lines =>
    refine .inl fun empty => ?_
    obtain ⟨noSpace, noIndent⟩ : layout.before = [] ∧ line.indent.unattach = [] := by
      simpa [start, DeclarationStart.gap, comments] using empty
    have unindented := map_eq_nil_iff.mp noIndent
    simp [startsWithComment, comments, noSpace, unindented] at apart

/-- The declaration without the spacing in front of it. -/
def written : List Token :=
  layout.start.inner ++ layout.start.token :: layout.endTokens

theorem tokens_eq_gap_append : layout.tokens = layout.start.gap ++ layout.written := by
  simp [tokens_eq_start_append, DeclarationStart.tokens, written]

/-- The property that is entered is found under the name, and is overwritten there. -/
theorem declared_start (attributes : Attributes) (properties : NameTable PropertyDef) :
    (layout.start.declared attributes properties).get? layout.name =
        some (layout.entered attributes properties) ∧
      ∀ property, (layout.start.declared attributes properties).insert layout.name property =
        properties.insert layout.name property := by
  unfold DeclarationStart.declared DeclarationStart.commented entered
  cases comments : layout.comments with
  | nil => cases known : properties.get? layout.name <;>
      simp [start, comments, known, Table.insert_insert]
  | cons line lines => simp [start, comments, Table.insert_insert]

end DeclarationLayout

namespace ClassState

section

variable {position : Nat} {definition : ClassDef} {notices : List Notice} (start : DeclarationStart)
  (attributes : Attributes) (previous : Text)

private theorem readPropertyComment_start (rest : List Token) :
    ∃ found, readPropertyComment attributes previous []
        ⟨position, start.inner ++ start.token :: rest, definition, notices⟩ =
      .ok (found, ⟨position + start.inner.length, start.token :: rest,
        { definition with properties := start.commented attributes definition.properties },
        notices⟩) := by
  obtain ⟨_, notIndent, notNewline, notComment, _⟩ := start.token_is_plain
  unfold DeclarationStart.inner DeclarationStart.commented
  cases start.comments with
  | nil =>
    refine ⟨previous, ?_⟩
    rw [nil_append, readPropertyComment, peek_cons, Reads.ok_bind, if_pos (by simp [notComment])]
    rfl
  | cons line lines =>
    have read := @readPropertyComment_above position definition notices rest start.token
      attributes previous line lines start.indent [] notIndent notNewline notComment
    have length : position + (2 + (lines.flatMap CommentLine.tokens).length +
        start.indent.length) = position + (⟨.comment, line.comment⟩ :: line.lineEnd.val ::
          (lines.flatMap CommentLine.tokens ++ start.indent.unattach) : List Token).length := by
      simp only [length_cons, length_append, length_unattach]
      omega
    simp only [cons_append, append_assoc]
    rw [length, nil_append] at read
    by_cases isName : start.token.kind == .name
    · rw [if_pos isName] at read
      exact ⟨start.token.value, by rw [read, if_pos isName]; rfl⟩
    · rw [if_neg isName] at read
      exact ⟨previous, by rw [read, if_neg isName]⟩

theorem readDeclaration_start {space : List Token} (spaced : ∀ token ∈ space, isSpacing token)
    (rest : List Token) :
    readDeclaration attributes previous
        ⟨position, space ++ (start.inner ++ start.token :: rest), definition, notices⟩ =
      readSpecified start.token.value
        ⟨position + (space.length + start.inner.length + 1), rest,
          { definition with properties := start.declared attributes definition.properties },
          notices⟩ := by
  obtain ⟨others, shape⟩ := start.exists_inner_append rest
  have skipped : skipSpacing
      ⟨position, space ++ (start.inner ++ start.token :: rest), definition, notices⟩ =
        .ok ⟨position + space.length, start.inner ++ start.token :: rest, definition, notices⟩ := by
    rw [shape]
    exact skip_append_cons spaced start.first_is_plain.1
  obtain ⟨found, commented⟩ := @readPropertyComment_start (position + space.length) definition
    notices start attributes previous rest
  rw [readDeclaration, skipped, Reads.ok_bind, commented, Reads.ok_bind]
  simp only [peek_cons, Reads.ok_bind, start.isName, if_true]
  have place : position + space.length + start.inner.length + 1 =
      position + (space.length + start.inner.length + 1) := by
    omega
  rw [← place]
  -- The reader and `declared` enter the property under the same condition.
  split
  · rename_i isNew
    have declared : start.declared attributes definition.properties =
        (start.commented attributes definition.properties).insert start.token.value
          { attributes } := if_pos isNew
    rw [declared]
    rfl
  · rename_i isKnown
    have declared : start.declared attributes definition.properties =
        start.commented attributes definition.properties := if_neg isKnown
    rw [declared]
    rfl

theorem readDeclarations_start {space : List Token} (spaced : ∀ token ∈ space, isSpacing token)
    (rest : List Token) :
    readDeclarations attributes previous
        ⟨position, space ++ (start.inner ++ start.token :: rest), definition, notices⟩ =
      readSpecified start.token.value
        ⟨position + (space.length + start.inner.length + 1), rest,
          { definition with properties := start.declared attributes definition.properties },
          notices⟩ >>= fun step =>
        match step with
        | .ended after => .ok after
        | .next name after =>
          progressing .declarations
            ⟨position, space ++ (start.inner ++ start.token :: rest), definition, notices⟩ after
            fun _ => readDeclarations attributes name after := by
  obtain ⟨others, shape⟩ := start.exists_inner_append rest
  obtain ⟨token, notEnd, peeked⟩ := @exists_peek position definition notices space others
    start.first _ (fun token member => Token.not_isKeyword_of_isSpacing (spaced token member) "end")
    fun _ => start.first_is_plain.2
  rw [← shape] at peeked
  rw [readDeclarations, peeked, Reads.ok_bind, if_neg (Bool.eq_false_iff.mp notEnd),
    readDeclaration_start start attributes previous spaced]
  rfl

end

variable {position : Nat} {definition : ClassDef} {notices : List Notice} {rest : List Token}
  {stop : Token}

/-- A declaration is read from the spacing in front of it, or behind this, to the first token of the
next one. -/
theorem readDeclarations_layout (layout : DeclarationLayout) (attributes : Attributes)
    (previous : Text) {space gap : List Token} (spaced : ∀ token ∈ space, isSpacing token)
    (isSpaced : ∀ token ∈ gap, isSpacing token) (notSpacing : isSpacing stop = false)
    (apart : layout.takesComment → gap ≠ [] ∨ stop.isComment = false) :
    readDeclarations attributes previous
        ⟨position, space ++ (layout.written ++ (gap ++ stop :: rest)), definition, notices⟩ =
      readDeclarations attributes layout.name
        ⟨position + (space.length + layout.written.length + gap.length), stop :: rest,
          { definition with properties := layout.enter attributes definition.properties },
          notices⟩ := by
  obtain ⟨isThere, overwritten⟩ := layout.declared_start attributes definition.properties
  have regrouped : layout.written ++ (gap ++ stop :: rest) = layout.start.inner ++
      layout.start.token :: (layout.endTokens ++ (gap ++ stop :: rest)) := by
    simp [DeclarationLayout.written]
  have place : position + (space.length + layout.start.inner.length + 1) +
      (layout.endTokens.length + gap.length) =
      position + (space.length + layout.written.length + gap.length) := by
    simp only [DeclarationLayout.written, length_append, length_cons]
    omega
  have ended := @endsDeclaration_layout (position + (space.length + layout.start.inner.length + 1))
    { definition with properties := layout.start.declared attributes definition.properties } notices
    rest stop layout _ gap isThere isSpaced notSpacing apart
  rw [EndsLayout, place, overwritten] at ended
  rw [regrouped, readDeclarations_start layout.start attributes previous spaced]
  refine (congrArg (· >>= _) ended).trans ?_
  refine progressing_of_lt ?_
  simp only [length_append, length_cons]
  omega

end ClassState

end MatlabDocs
