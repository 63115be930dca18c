import MatlabDocs.Proofs.Class.BlockPlaces
import MatlabDocs.Proofs.Class.DeclarationBlocks

/-!
# Declarations in their place

A declaration of a property up to the name, which may be a known function name, with the comment
lines above it, the declarations above these and what stands in front of the block.  The reader
comes to what follows the name in the same way, whatever that is.  So two classes that differ only
there are read alike, if the reader treats what follows the name alike in both.
-/

set_option mvcgen.warning false

namespace MatlabDocs

open List ClassState

namespace ClassState

open Relocation

variable {position : Nat} {definition : ClassDef} {notices : List Notice} (start : DeclarationStart)
  (attributes : Attributes) (previous : Text) {space : List Token}

private theorem readSpecified_yields (name : Text) (state : ClassState) :
    Yields (readSpecified name state) (fun step => Follows state step.place) fun _ => True := by
  mvcgen [readSpecified] with grind

/-- Two blocks that differ behind one name are read alike, if what stands behind the name is. -/
theorem readDeclarations_start_state (spaced : ∀ token ∈ space, isSpacing token)
    {move : Relocation} {rest others : List Token}
    (specified : ∀ position definition notices property,
      definition.properties.get? start.token.value = some property →
      readSpecified start.token.value ⟨position, others, move.definition definition, notices⟩ =
        move.step <$>
          move.reads (readSpecified start.token.value ⟨position, rest, definition, notices⟩)) :
    readDeclarations attributes previous
        ⟨position, space ++ (start.inner ++ start.token :: others), move.definition definition,
          notices⟩ =
      move.state <$> move.reads (readDeclarations attributes previous
        ⟨position, space ++ (start.inner ++ start.token :: rest), definition, notices⟩) := by
  obtain ⟨property, isThere⟩ := start.exists_get?_declared attributes definition.properties
  have read := specified (position + (space.length + start.inner.length + 1)) { definition with
    properties := start.declared attributes definition.properties } notices property isThere
  have moved : { move.definition definition with
      properties := start.declared attributes (move.definition definition).properties } =
    move.definition { definition with
      properties := start.declared attributes definition.properties } := rfl
  rw [readDeclarations_start start attributes previous spaced,
    readDeclarations_start start attributes previous spaced, moved, read]
  -- What is left of a step is left in both readings, so both of them go on.
  have yields := readSpecified_yields start.token.value
    ⟨position + (space.length + start.inner.length + 1), rest, { definition with
      properties := start.declared attributes definition.properties }, notices⟩
  have otherYields := readSpecified_yields start.token.value
    ⟨position + (space.length + start.inner.length + 1), others, move.definition { definition with
      properties := start.declared attributes definition.properties }, notices⟩
  rw [read] at otherYields
  generalize readSpecified start.token.value ⟨position + (space.length + start.inner.length + 1),
    rest, { definition with properties := start.declared attributes definition.properties },
    notices⟩ = reading at yields otherYields ⊢
  rcases reading with stop | ⟨name, after⟩ | after
  · rfl
  · have fewer := (yields.of_ok rfl).rest.length_le
    have otherFewer := (otherYields.of_ok rfl).rest.length_le
    have goesOn : ∀ tokens : List Token, after.rest.length ≤ tokens.length →
        after.rest.length < (space ++ (start.inner ++ start.token :: tokens)).length := by
      intro tokens bounded
      simp only [length_append, length_cons]
      omega
    refine (progressing_of_lt (goesOn others otherFewer)).trans ?_
    refine (readDeclarations_state attributes name after).trans ?_
    refine congrArg (move.state <$> move.reads ·) (Eq.symm ?_)
    exact progressing_of_lt (goesOn rest fewer)
  · rfl

end ClassState

/-! ## Places in a class -/

/-- Where a declaration stands in a class: what is in front of its block, the head of the block and
the declarations above it. -/
structure DeclarationPlace where
  front : ClassFront
  head : AttributePart ClassDef.propertyAttributes
  headEnd : LineEndToken
  members : List DeclarationLayout
  areApart : DeclarationLayout.areApart members
  start : DeclarationStart
  ends : DeclarationLayout.EndsApart members start.gap start.first

namespace DeclarationPlace

open ClassState Relocation

variable (place : DeclarationPlace)

def blockTokens : List Token :=
  place.head.tokens ++ place.headEnd.val ::
    (place.members.flatMap DeclarationLayout.tokens ++ place.start.tokens)

def tokens : List Token :=
  place.front.tokens ++ BlockSort.properties.opening :: place.blockTokens

def entered (properties : NameTable PropertyDef) : NameTable PropertyDef :=
  DeclarationLayout.enterAll place.members place.head.attributes properties

theorem exists_readProperties :
    ∃ previous space passed, (∀ token ∈ space, isSpacing token) ∧
      ∀ rest position definition notices,
        readProperties ⟨position, BlockSort.properties.opening :: (place.blockTokens ++ rest),
            definition, notices⟩ =
          readDeclarations place.head.attributes previous
            ⟨position + passed, space ++ (place.start.inner ++ place.start.token :: rest),
              { definition with properties := place.entered definition.properties }, notices⟩ := by
  obtain ⟨front, head, headEnd, members, areApart, start, ends⟩ := place
  have headSpacing := headEnd.isSpacing_of_mem
  have stops := Token.not_isIndent_of_isNewline headEnd.property
  have notOpening : headEnd.val.isPunctuation "(" = false :=
    beq_eq_false_iff_ne.mpr (ne_of_test headEnd.property (by decide))
  have attributed : ∀ rest position definition notices,
      readProperties ⟨position, BlockSort.properties.opening ::
          (head.tokens ++ headEnd.val :: rest), definition, notices⟩ =
        readDeclarations head.attributes []
          ⟨position + 1 + head.tokens.length, headEnd.val :: rest, definition, notices⟩ := by
    intro rest position definition notices
    have read := head.isRead headEnd.val rest (fun _ => ⟨stops, notOpening⟩) (position + 1)
      definition notices
    rw [readProperties, advance_one, read]
    rfl
  cases members with
  | nil =>
    refine ⟨[], headEnd.val :: start.gap, 1 + head.tokens.length,
      forall_mem_cons.mpr ⟨headSpacing _ (by simp), start.isSpacing_of_mem_gap⟩, ?_⟩
    intro rest position definition notices
    have regrouped : blockTokens ⟨front, head, headEnd, [], areApart, start, ends⟩ ++ rest =
        head.tokens ++ headEnd.val :: (start.gap ++ (start.inner ++ start.token :: rest)) := by
      simp [blockTokens, DeclarationStart.tokens]
    rw [regrouped, attributed, Nat.add_assoc]
    rfl
  | cons layout members =>
    refine ⟨(members.getLast?.map DeclarationLayout.name).getD layout.name, [],
      1 + head.tokens.length + 1 + ((layout :: members).flatMap DeclarationLayout.tokens ++
        start.gap).length, forall_mem_nil _, ?_⟩
    intro rest position definition notices
    obtain ⟨others, shape⟩ := start.exists_inner_append rest
    have regrouped : blockTokens ⟨front, head, headEnd, layout :: members, areApart, start,
        ends⟩ ++ rest = head.tokens ++ headEnd.val ::
          ((layout :: members).flatMap DeclarationLayout.tokens ++
            (start.gap ++ start.first :: others)) := by
      simp [blockTokens, DeclarationStart.tokens, ← shape]
    rw [regrouped, attributed, readDeclarations_behindHead layout members areApart _ headEnd
      start.isSpacing_of_mem_gap start.first_is_plain.1 ends, nil_append, shape]
    simp only [Nat.add_assoc]
    rfl

/-- Classes that differ behind one name are read alike, if what stands behind the name is. -/
theorem read_of_specified_eq {rest others : List Token} {shift : Nat} {module : Text}
    (specified : ∀ position definition notices property,
      definition.properties.get? place.start.token.value = some property →
      let move : Relocation := { shift, tokens := place.tokens ++ others }
      readSpecified place.start.token.value
          ⟨position, others, move.definition definition, notices⟩ =
        move.step <$> move.reads
          (readSpecified place.start.token.value ⟨position, rest, definition, notices⟩)) :
    ClassDef.read place.front.head.name module (place.tokens ++ others) =
      (ClassDef.read place.front.head.name module (place.tokens ++ rest)).map
        (Relocation.definition { shift, tokens := place.tokens ++ others }) := by
  obtain ⟨previous, space, passed, spaced, read⟩ := place.exists_readProperties
  have regrouped : ∀ rest, place.tokens ++ rest =
      place.front.tokens ++ BlockSort.properties.opening :: (place.blockTokens ++ rest) := by
    simp [tokens]
  simp only [regrouped] at specified ⊢
  apply place.front.read_of_block_eq .properties
  intro position definition notices
  simp only [BlockSort.read, read]
  exact @readDeclarations_start_state _ { definition with
    properties := place.entered definition.properties } notices place.start place.head.attributes
    previous _ spaced _ _ _ specified

end DeclarationPlace

namespace DeclarationLayout

variable (layout : DeclarationLayout)

theorem endsApart_of_areApart {above below : List DeclarationLayout}
    (apart : areApart (above ++ layout :: below)) :
    areApart above ∧ EndsApart above layout.start.gap layout.start.first := by
  induction above with
  | nil => exact ⟨rfl, nofun⟩
  | cons first above ih =>
    obtain ⟨later, fromHere⟩ := areApart_cons apart
    obtain ⟨aboveApart, ends⟩ := ih later
    cases above with
    | nil =>
      refine ⟨by simp [areApart], ?_⟩
      intro last isLast takes
      obtain rfl : first = last := by simpa using isLast
      exact layout.gap_ne_nil_or_not_isComment (by simpa using fromHere takes)
    | cons second above =>
      refine ⟨?_, fun last isLast => ends last (by rwa [getLast?_cons_cons] at isLast)⟩
      rw [areApart, aboveApart, Bool.and_true]
      cases takes : first.takesComment with
      | false => rfl
      | true => simpa using fromHere takes

end DeclarationLayout

end MatlabDocs
