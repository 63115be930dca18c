import MatlabDocs.Proofs.Class.ClassHeads
import MatlabDocs.Proofs.Class.Declarations

/-!
# Blocks of declarations

The declarations of a property block are read one after the other.  A comment at the very start of
the line below a value without one is taken for the comment of that value, and not for the
docstring of the declaration that it stands above.
-/

namespace MatlabDocs

open List ClassState DeclarationLayout Token

namespace DeclarationLayout

variable (layout : DeclarationLayout)

variable (members : List DeclarationLayout)

def enterAll (attributes : Attributes)
    (properties : NameTable PropertyDef) : NameTable PropertyDef :=
  members.foldl (fun properties layout => layout.enter attributes properties) properties

def strayComment? : Option CommentLine :=
  layout.comments.head?.filter fun _ => layout.startsWithComment

def withComment (takes : layout.takesComment) (line : CommentLine) : DeclarationLayout :=
  { layout with
    below := some layout.lineEnd
    comment := some line.comment
    lineEnd := line.lineEnd
    endsBehindValue := nofun
    endsBehindName := nofun
    belowValue := fun _ => ⟨(Bool.and_eq_true_iff.mp takes).1, rfl⟩ }

def withoutComment : DeclarationLayout :=
  { layout with comments := layout.comments.tail }

def attachFrom (layout : DeclarationLayout) : List DeclarationLayout → List DeclarationLayout
  | [] => [layout]
  | next :: members =>
    match next.strayComment? with
    | none => layout :: attachFrom next members
    | some line =>
      if takes : layout.takesComment then
        layout.withComment takes line :: attachFrom next.withoutComment members
      else layout :: attachFrom next members

def attach : List DeclarationLayout → List DeclarationLayout
  | [] => []
  | layout :: members => layout.attachFrom members

/-- No declaration starts with a comment that the one above would take. -/
def areApart : List DeclarationLayout → Bool
  | [] => true
  | layout :: members =>
    (!layout.takesComment || !members.head?.any startsWithComment) && areApart members

theorem strayComment?_eq_none_iff :
    layout.strayComment? = none ↔ layout.startsWithComment = false := by
  constructor
  · intro none
    cases comments : layout.comments with
    | nil => simp [startsWithComment, comments]
    | cons line lines => simpa [strayComment?, comments] using none
  · intro starts
    simp [strayComment?, starts]

theorem tokens_of_strayComment? {line : CommentLine} (stray : layout.strayComment? = some line) :
    layout.tokens = ⟨.comment, line.comment⟩ :: line.lineEnd.val ::
      layout.withoutComment.tokens := by
  obtain ⟨first, starts⟩ := Option.filter_eq_some_iff.mp stray
  obtain ⟨others, comments⟩ := head?_eq_some_iff.mp first
  obtain ⟨above, unindented⟩ : layout.before = [] ∧ line.indent = [] := by
    simpa [startsWithComment, comments] using starts
  simp [tokens, withoutComment, endTokens, commentTokens, valueTokens, above, comments,
    CommentLine.tokens, unindented]

theorem tokens_withComment (takes : layout.takesComment) (line : CommentLine) :
    (layout.withComment takes line).tokens =
      layout.tokens ++ [⟨.comment, line.comment⟩, line.lineEnd.val] := by
  have uncommented : layout.comment = none := by
    simpa using (Bool.and_eq_true_iff.mp takes).2
  have notBelow := layout.below_eq_none (.inr uncommented)
  simp [tokens, withComment, endTokens, commentTokens, valueTokens, uncommented, notBelow]

/-- A declaration takes the first comment of the next one, or the two are apart. -/
theorem attachFrom_cons (next : DeclarationLayout) (members : List DeclarationLayout) :
    (∃ line, ∃ takes : layout.takesComment, next.strayComment? = some line ∧
      layout.attachFrom (next :: members) =
        layout.withComment takes line :: next.withoutComment.attachFrom members) ∨
    (layout.takesComment → next.startsWithComment = false) ∧
      layout.attachFrom (next :: members) = layout :: next.attachFrom members := by
  cases stray : next.strayComment? with
  | none =>
    refine .inr ⟨fun _ => next.strayComment?_eq_none_iff.mp stray, ?_⟩
    simp [attachFrom, stray]
  | some line =>
    by_cases takes : layout.takesComment
    · refine .inl ⟨line, takes, rfl, ?_⟩
      simp [attachFrom, stray, dif_pos takes]
    · refine .inr ⟨fun takesToo => absurd takesToo takes, ?_⟩
      simp [attachFrom, stray, dif_neg takes]

theorem flatMap_tokens_attachFrom :
    (layout.attachFrom members).flatMap tokens = layout.tokens ++ members.flatMap tokens := by
  induction members generalizing layout with
  | nil => simp [attachFrom]
  | cons next members ih =>
    obtain ⟨line, takes, stray, shape⟩ | ⟨_, shape⟩ := layout.attachFrom_cons next members
    · rw [shape, flatMap_cons, flatMap_cons, ih, tokens_withComment,
        next.tokens_of_strayComment? stray]
      simp
    · rw [shape, flatMap_cons, flatMap_cons, ih]

private theorem head?_attachFrom :
    (layout.attachFrom members).head?.any startsWithComment = layout.startsWithComment := by
  cases members with
  | nil => simp [attachFrom]
  | cons next members =>
    obtain ⟨line, takes, _, shape⟩ | ⟨_, shape⟩ := layout.attachFrom_cons next members
    · simp [shape, startsWithComment, withComment]
    · simp [shape]

theorem areApart_attachFrom : areApart (layout.attachFrom members) := by
  induction members generalizing layout with
  | nil => simp [attachFrom, areApart]
  | cons next members ih =>
    obtain ⟨line, takes, _, shape⟩ | ⟨apart, shape⟩ := layout.attachFrom_cons next members
    · simp [shape, areApart, ih, takesComment, withComment]
    · rw [shape, areApart, ih, head?_attachFrom, Bool.and_true]
      cases takes : layout.takesComment with
      | false => rfl
      | true => simp [apart takes]

theorem flatMap_tokens_attach : (attach members).flatMap tokens = members.flatMap tokens := by
  cases members with
  | nil => rfl
  | cons layout members => exact layout.flatMap_tokens_attachFrom members

theorem areApart_attach : areApart (attach members) := by
  cases members with
  | nil => rfl
  | cons layout members => exact layout.areApart_attachFrom members

variable {members : List DeclarationLayout}

theorem areApart_cons {layout : DeclarationLayout} (apart : areApart (layout :: members)) :
    areApart members ∧
      (layout.takesComment → members.head?.any startsWithComment = false) := by
  obtain ⟨fromHere, later⟩ := Bool.and_eq_true_iff.mp apart
  refine ⟨later, fun takes => ?_⟩
  simpa [takes] using fromHere

private theorem attachFrom_of_areApart (apart : areApart (layout :: members)) :
    layout.attachFrom members = layout :: members := by
  induction members generalizing layout with
  | nil => rfl
  | cons next members ih =>
    obtain ⟨later, fromHere⟩ := areApart_cons apart
    obtain ⟨line, takes, stray, _⟩ | ⟨_, shape⟩ := layout.attachFrom_cons next members
    · have starts : next.startsWithComment = false := by simpa using fromHere takes
      rw [next.strayComment?_eq_none_iff.mpr starts] at stray
      contradiction
    · rw [shape, ih next later]

theorem attach_of_areApart (apart : areApart members) : attach members = members := by
  cases members with
  | nil => rfl
  | cons layout members => exact layout.attachFrom_of_areApart apart

/-- The last declaration does not take a comment that starts these tokens. -/
def EndsApart (members : List DeclarationLayout) (gap : List Token) (stop : Token) : Prop :=
  ∀ last ∈ members.getLast?, last.takesComment → gap ≠ [] ∨ stop.isComment = false

private theorem EndsApart.of_cons {layout : DeclarationLayout} {gap : List Token} {stop : Token}
    (ends : EndsApart (layout :: members) gap stop) : EndsApart members gap stop := by
  cases members with
  | nil => nofun
  | cons next members =>
    intro last isLast
    exact ends last (by rwa [getLast?_cons_cons])

end DeclarationLayout

namespace ClassState

variable {position : Nat} {definition : ClassDef} {notices : List Notice} {stop : Token}

/-- Declarations are read in turn, up to any token behind them that is no spacing. -/
theorem readDeclarations_members (layout : DeclarationLayout) (members : List DeclarationLayout)
    (areApart : areApart (layout :: members)) (attributes : Attributes) (previous : Text)
    {space beforeStop behind : List Token} (isSpaced : ∀ token ∈ space, isSpacing token)
    (spaced : ∀ token ∈ beforeStop, isSpacing token) (stops : isSpacing stop = false)
    (ends : DeclarationLayout.EndsApart (layout :: members) beforeStop stop) :
    readDeclarations attributes previous ⟨position, space ++ (layout.written ++
        (members.flatMap tokens ++ (beforeStop ++ stop :: behind))), definition, notices⟩ =
      readDeclarations attributes ((members.getLast?.map name).getD layout.name)
        ⟨position + (space.length + layout.written.length +
            (members.flatMap tokens ++ beforeStop).length), stop :: behind,
          { definition with
            properties := enterAll (layout :: members) attributes definition.properties },
          notices⟩ := by
  induction members generalizing layout position definition previous space with
  | nil =>
    exact readDeclarations_layout layout attributes previous isSpaced spaced stops (ends layout rfl)
  | cons next members ih =>
    obtain ⟨later, fromHere⟩ := areApart_cons areApart
    obtain ⟨others, shape⟩ := next.start.exists_inner_append
      (next.endTokens ++ (members.flatMap tokens ++ (beforeStop ++ stop :: behind)))
    have regrouped : (next :: members).flatMap tokens ++ (beforeStop ++ stop :: behind) =
        next.start.gap ++ next.start.first :: others := by
      simp [← shape, tokens_eq_gap_append, written]
    have apart : layout.takesComment →
        next.start.gap ≠ [] ∨ next.start.first.isComment = false :=
      fun takes => next.gap_ne_nil_or_not_isComment (by simpa using fromHere takes)
    rw [regrouped, readDeclarations_layout layout attributes previous isSpaced
      next.start.isSpacing_of_mem_gap next.start.first_is_plain.1 apart, ← shape]
    have remaining := @ih (position + (space.length + layout.written.length +
      next.start.gap.length)) { definition with
        properties := layout.enter attributes definition.properties } next later layout.name []
      (forall_mem_nil _) ends.of_cons
    have unwritten : ∀ rest, next.start.inner ++ next.start.token :: (next.endTokens ++ rest) =
        [] ++ (next.written ++ rest) := by
      simp [written]
    have lastName : ((next :: members).getLast?.map name).getD layout.name =
        (members.getLast?.map name).getD next.name := by
      rw [getLast?_cons]
      cases members.getLast? <;> rfl
    rw [unwritten, remaining, lastName]
    congr 2
    simp only [flatMap_cons, tokens_eq_gap_append, length_append, length_nil]
    omega

theorem readDeclarations_behindHead (layout : DeclarationLayout) (members : List DeclarationLayout)
    (areApart : areApart (layout :: members)) (attributes : Attributes)
    (headEnd : LineEndToken) {beforeStop behind : List Token}
    (spaced : ∀ token ∈ beforeStop, isSpacing token) (stops : isSpacing stop = false)
    (ends : DeclarationLayout.EndsApart (layout :: members) beforeStop stop) :
    readDeclarations attributes []
        ⟨position, headEnd.val :: ((layout :: members).flatMap tokens ++
          (beforeStop ++ stop :: behind)), definition, notices⟩ =
      readDeclarations attributes ((members.getLast?.map name).getD layout.name)
        ⟨position + 1 + ((layout :: members).flatMap tokens ++ beforeStop).length, stop :: behind,
          { definition with
            properties := enterAll (layout :: members) attributes definition.properties },
          notices⟩ := by
  have isSpaced : ∀ token ∈ headEnd.val :: layout.start.gap, isSpacing token :=
    forall_mem_cons.mpr ⟨isSpacing_of_isNewline headEnd.property, layout.start.isSpacing_of_mem_gap⟩
  have read := @readDeclarations_members position definition notices stop layout members areApart
    attributes [] _ _ behind isSpaced spaced stops ends
  have regrouped : headEnd.val :: ((layout :: members).flatMap tokens ++
      (beforeStop ++ stop :: behind)) = headEnd.val :: layout.start.gap ++ (layout.written ++
        (members.flatMap tokens ++ (beforeStop ++ stop :: behind))) := by
    simp [tokens_eq_gap_append]
  rw [regrouped, read]
  congr 2
  simp only [flatMap_cons, tokens_eq_gap_append, length_append, length_cons]
  omega

private theorem readDeclarations_empty (attributes : Attributes) (headEnd lineEnd : LineEndToken)
    {beforeEnd : List Token} (spaced : ∀ token ∈ beforeEnd, isSpacing token) (tail : List Token) :
    Consumes (readDeclarations attributes [])
      (headEnd.val :: (beforeEnd ++ [Token.ending, lineEnd.val])) tail id := by
  intro position definition notices
  have headSpacing : ∀ token ∈ headEnd.val :: beforeEnd, isSpacing token :=
    forall_mem_cons.mpr ⟨isSpacing_of_isNewline headEnd.property, spaced⟩
  have notEnd : headEnd.val.isKeyword "end" = false :=
    not_isKeyword_of_isSpacing (headSpacing headEnd.val (by simp)) "end"
  have start := @skip_append_cons position definition notices (headEnd.val :: beforeEnd)
    (lineEnd.val :: tail) ending isSpacing headSpacing (by decide)
  have ended : readDeclaration attributes [] ⟨position, headEnd.val :: beforeEnd ++ ending ::
      lineEnd.val :: tail, definition, notices⟩ =
        .ok (.ended
          ⟨position + (headEnd.val :: beforeEnd).length + 2, tail, definition, notices⟩) := by
    rw [readDeclaration, skipSpacing, start, Reads.ok_bind, readPropertyComment, peek_cons,
      Reads.ok_bind]
    rfl
  have regrouped : headEnd.val :: (beforeEnd ++ [ending, lineEnd.val]) ++ tail =
      headEnd.val :: beforeEnd ++ ending :: lineEnd.val :: tail := by
    simp
  rw [regrouped, readDeclarations, ended]
  simp only [cons_append, peek_cons, Reads.ok_bind, notEnd, Bool.false_eq_true, if_false,
    pure, Except.pure, id_eq, length_cons, length_append, length_nil,
    Except.ok.injEq, mk.injEq, and_true]
  omega

/-- The declarations of a block are read from the line end behind its attributes on.  Behind an
empty block the line end of its `end` is passed over as well. -/
theorem readDeclarations_block (members : List DeclarationLayout)
    (areApart : areApart members) (attributes : Attributes)
    (headEnd lineEnd : LineEndToken) {beforeEnd : List Token}
    (spaced : ∀ token ∈ beforeEnd, isSpacing token) :
    ∃ passed left, passed ++ left = members.flatMap tokens ++
        (beforeEnd ++ [Token.ending, lineEnd.val]) ∧
      (∀ token ∈ left, isSpacing token) ∧
      ∀ tail, Consumes (readDeclarations attributes []) (headEnd.val :: passed) tail
        (fun definition => { definition with
          properties := enterAll members attributes definition.properties }) := by
  cases members with
  | nil =>
    exact ⟨beforeEnd ++ [ending, lineEnd.val], [], by simp, forall_mem_nil _,
      readDeclarations_empty attributes headEnd lineEnd spaced⟩
  | cons layout members =>
    refine ⟨(layout :: members).flatMap tokens ++ (beforeEnd ++ [ending]),
      [lineEnd.val], by simp, lineEnd.isSpacing_of_mem, ?_⟩
    intro tail position definition notices
    have isEnd : ending.isKeyword "end" = true := by decide
    have read := @readDeclarations_behindHead position definition notices ending layout
      members areApart attributes headEnd beforeEnd tail spaced (by decide)
      fun _ _ _ => .inr (by decide)
    have regrouped : headEnd.val :: ((layout :: members).flatMap tokens ++
        (beforeEnd ++ [ending])) ++ tail =
        headEnd.val :: ((layout :: members).flatMap tokens ++
          (beforeEnd ++ ending :: tail)) := by
      simp
    rw [regrouped, read, readDeclarations, peek_cons, Reads.ok_bind, if_pos isEnd]
    simp only [advance_one, pure, Except.pure, length_append, length_cons,
      length_nil, Except.ok.injEq, mk.injEq, and_true]
    omega

end ClassState

/-- A block of declarations, up to the line end behind its `end`. -/
structure DeclarationBlock where
  head : AttributePart ClassDef.propertyAttributes
  headEnd : LineEndToken
  members : List DeclarationLayout
  beforeEnd : List Token
  spaced : ∀ token ∈ beforeEnd, isSpacing token
  lineEnd : LineEndToken

namespace DeclarationBlock

variable (block : DeclarationBlock)

def tokens : List Token :=
  ⟨.keyword, "properties"⟩ :: (block.head.tokens ++ block.headEnd.val ::
    (block.members.flatMap DeclarationLayout.tokens ++
      (block.beforeEnd ++ [Token.ending, block.lineEnd.val])))

def enter : NameTable PropertyDef → NameTable PropertyDef :=
  enterAll (DeclarationLayout.attach block.members) block.head.attributes

theorem isRead :
    ∃ passed left, BlockSort.properties.opening :: (passed ++ left) = block.tokens ∧
      (∀ token ∈ left, ClassState.isCommentary token) ∧
      ∀ tail, ClassState.Consumes ClassState.readProperties
        (BlockSort.properties.opening :: passed) tail (·.extend block.enter fun _ => []) := by
  obtain ⟨passed, left, split, spacing, declarations⟩ := readDeclarations_block
    (DeclarationLayout.attach block.members) (DeclarationLayout.areApart_attach block.members)
    block.head.attributes block.headEnd block.lineEnd block.spaced
  rw [flatMap_tokens_attach] at split
  refine ⟨block.head.tokens ++ block.headEnd.val :: passed, left, ?_, ?_, ?_⟩
  · simp [tokens, ← split, BlockSort.opening]
  · exact fun token member => isCommentary_of_isSpacing token (spacing token member)
  · exact fun tail => .of_attributes block.head block.headEnd _
      (fun attributes => readDeclarations attributes []) (fun _ => rfl)
      (declarations tail)

def part : BlockPart where
  sort := .properties
  tokens := block.tokens
  enter := block.enter
  entries := fun _ => []
  isRead := block.isRead

end DeclarationBlock

end MatlabDocs
