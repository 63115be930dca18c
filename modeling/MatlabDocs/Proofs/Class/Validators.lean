import MatlabDocs.Proofs.Class.DeclarationPlaces

/-!
# Validation of properties

Between the name of a property and its default value may stand its size, its class and validators.
The reader passes over names, integers, strings, blanks and some signs there.  Whatever these are,
the class is read as if they were not there.  At any other token the declaration is over: a known
function name is taken for the next property, and at an operator, a decimal number or a square
bracket the class is given up.
-/

namespace MatlabDocs

open List LineEndToken ClassDef

/-! ## What stands behind the name -/

namespace ClassState

open Relocation

variable {position : Nat} {definition : ClassDef} {notices : List Notice}

section

variable {specifiers : List Token} (areSpecifiers : ∀ token ∈ specifiers, isSpecifier token)
include areSpecifiers

theorem readSpecified_append (name : Text) (rest : List Token) :
    readSpecified name ⟨position, specifiers ++ rest, definition, notices⟩ =
      readSpecified name ⟨position + specifiers.length, rest, definition, notices⟩ := by
  have passed : pass ⟨position, specifiers ++ rest, definition, notices⟩ isSpecifier =
      pass ⟨position + specifiers.length, rest, definition, notices⟩ isSpecifier := by
    simp [pass, takeWhile_append_of_pos areSpecifiers, advance, Nat.add_assoc]
  rw [readSpecified, readSpecified, passed]

/-- Tokens that the reader passes over can be left out. -/
theorem readSpecified_append_state {move : Relocation} (shift : move.shift = specifiers.length)
    (name : Text) (rest : List Token) :
    readSpecified name ⟨position, specifiers ++ rest, move.definition definition, notices⟩ =
      move.step <$>
        move.reads (readSpecified name ⟨position, rest, definition, notices⟩) := by
  rw [readSpecified_append areSpecifiers, ← shift]
  exact readSpecified_state name ⟨position, rest, definition, notices⟩

end

/-- A token that ends a declaration without belonging to it. -/
structure EndsBare (stop : Token) : Prop where
  notSpecifier : isSpecifier stop = false
  notSpacing : isSpacing stop = false
  notComment : stop.isComment = false
  notEquals : stop.isPunctuation "=" = false
  notSemicolon : stop.isPunctuation ";" = false

variable {stop : Token}

theorem EndsBare.notIndent (ends : EndsBare stop) : stop.isIndent = false :=
  Bool.eq_false_iff.mpr fun indent =>
    Bool.eq_false_iff.mp ends.notSpacing (isSpacing_of_isIndent indent)

/-- At such a token a declaration ends without a value and a comment, like at the end of a line. -/
theorem readSpecified_bare {specifiers : List Token}
    (areSpecifiers : ∀ token ∈ specifiers, isSpecifier token) (ends : EndsBare stop)
    {gap : List Token} (lineEnd : gap = [] ∨ gap = [feed.val]) (more : List Token)
    {name : Text} {property : PropertyDef}
    (isThere : definition.properties.get? name = some property) :
    readSpecified name ⟨position, specifiers ++ (gap ++ stop :: more), definition, notices⟩ =
      .ok (.next name
        ⟨position + (specifiers.length + gap.length), stop :: more,
          { definition with
            properties := definition.properties.insert name
              { property with
                default? := some none, docstring? := some (property.docstring?.getD none) } },
          notices⟩) := by
  have spaced : ∀ token ∈ gap, isSpacing token := by
    rcases lineEnd with rfl | rfl
    · exact forall_mem_nil _
    · exact feed.isSpacing_of_mem
  obtain ⟨sign, others, shape, notSpecifier, notIndent, notComment, notEquals, notSemicolon⟩ :
      ∃ sign others, gap ++ stop :: more = sign :: others ∧ isSpecifier sign = false ∧
        sign.isIndent = false ∧ sign.isComment = false ∧ sign.isPunctuation "=" = false ∧
        sign.isPunctuation ";" = false := by
    rcases lineEnd with rfl | rfl
    · exact ⟨stop, more, rfl, ends.notSpecifier, ends.notIndent, ends.notComment, ends.notEquals,
        ends.notSemicolon⟩
    · exact ⟨feed.val, stop :: more, rfl, by decide⟩
  have passed := @pass_append_cons (position + specifiers.length) definition notices [] others sign
    isSpecifier (forall_mem_nil _) notSpecifier
  have skipped := @skipIndent_cons (position + specifiers.length) definition notices others sign
    notIndent
  have read := @readDefaultValue_bare (position + specifiers.length) definition notices others sign
    notEquals
  have ended := readPropertyEnd_of_value skipped read isThere rfl
  have behind := @skip_append_cons (position + specifiers.length)
    { definition with
      properties := definition.properties.insert name
        { property with
          default? := some none, docstring? := some (property.docstring?.getD none) } }
    notices gap more stop isSpacing spaced ends.notSpacing
  rw [shape] at behind
  simp only [nil_append, length_nil, Nat.add_zero] at passed
  simp only [notComment, Bool.false_eq_true, if_false] at ended
  rw [readSpecified_append areSpecifiers, readSpecified, shape]
  simp only [passed, Reads.ok_bind, peek_cons, notSemicolon, Bool.false_eq_true, if_false,
    ended.trans behind, Nat.add_assoc]
  rfl

/-- A token that is no part of a property block. -/
structure EndsBlock (stop : Token) : Prop extends EndsBare stop where
  notName : (stop.kind == .name || stop.kind == .builtinName || stop.kind == .functionName) = false
  notEnd : stop.isKeyword "end" = false

theorem EndsBare.of_builtin (builtin : stop.kind = .builtinName) : EndsBare stop := by
  obtain ⟨kind, value⟩ := stop
  obtain rfl : kind = .builtinName := builtin
  constructor <;> rfl

theorem EndsBlock.of_foreign
    (foreign : stop.kind = .operator ∨ stop.kind = .float ∨ stop = ⟨.punctuation, "["⟩ ∨
      stop = ⟨.punctuation, "]"⟩) : EndsBlock stop := by
  obtain ⟨kind, value⟩ := stop
  rcases foreign with isOperator | isFloat | isBracket | isBracket
  · obtain rfl : kind = .operator := isOperator
    refine ⟨?_, rfl, rfl⟩
    constructor <;> rfl
  · obtain rfl : kind = .float := isFloat
    refine ⟨?_, rfl, rfl⟩
    constructor <;> rfl
  · rw [isBracket]
    exact ⟨by constructor <;> decide, by decide, by decide⟩
  · rw [isBracket]
    exact ⟨by constructor <;> decide, by decide, by decide⟩

theorem readDeclarations_foreign (ends : EndsBlock stop) (attributes : Attributes) (previous : Text)
    (more : List Token) :
    readDeclarations attributes previous ⟨position, stop :: more, definition, notices⟩ =
      halt ⟨position, stop :: more, definition, notices ++ [.expectedProperty definition.module
        definition.name stop.kind.label stop.value.quoted]⟩ .expectedProperty := by
  have uncommented : readPropertyComment attributes previous []
      ⟨position, stop :: more, definition, notices⟩ =
        .ok (previous, ⟨position, stop :: more, definition, notices⟩) := by
    rw [readPropertyComment, peek_cons, Reads.ok_bind, if_pos (by simp [ends.notComment])]
    rfl
  rw [readDeclarations, peek_cons, Reads.ok_bind, if_neg (Bool.eq_false_iff.mp ends.notEnd),
    readDeclaration, skipSpacing, skip_cons ends.notSpacing, Reads.ok_bind, uncommented,
    Reads.ok_bind]
  simp only [peek_cons, Reads.ok_bind, ends.notName, ends.notEnd, ends.notSemicolon,
    Bool.false_eq_true, if_false]
  rfl

theorem readDeclarations_start_foreign (start : DeclarationStart) (attributes : Attributes)
    (previous : Text) {space : List Token} (spaced : ∀ token ∈ space, isSpacing token)
    {specifiers : List Token} (areSpecifiers : ∀ token ∈ specifiers, isSpecifier token)
    (ends : EndsBlock stop) (more : List Token) :
    ∃ state : ClassState,
      readDeclarations attributes previous ⟨position, space ++ (start.inner ++ start.token ::
          (specifiers ++ stop :: more)), definition, notices⟩ = state.halt .expectedProperty ∧
      state.definition =
        { definition with properties := start.endedBare attributes definition.properties } ∧
      state.notices = notices ++ [.expectedProperty definition.module definition.name
        stop.kind.label stop.value.quoted] := by
  obtain ⟨property, isThere⟩ := start.exists_get?_declared attributes definition.properties
  have read := @readSpecified_bare (position + (space.length + start.inner.length + 1))
    { definition with properties := start.declared attributes definition.properties } notices
    stop specifiers areSpecifiers ends.toEndsBare [] (.inl rfl) more start.token.value property
    isThere
  rw [nil_append] at read
  have shorter : (stop :: more).length < (space ++ (start.inner ++ start.token ::
      (specifiers ++ stop :: more))).length := by
    simp only [length_append, length_cons]
    omega
  rw [readDeclarations_start start attributes previous spaced, read, Reads.ok_bind]
  dsimp only
  rw [progressing_of_lt shorter, readDeclarations_foreign ends]
  refine ⟨_, rfl, ?_, rfl⟩
  simp [DeclarationStart.endedBare, isThere]

end ClassState

namespace DeclarationPlace

open ClassState

variable (place : DeclarationPlace) {specifiers : List Token}
  (areSpecifiers : ∀ token ∈ specifiers, isSpecifier token) {stop : Token}
include areSpecifiers

theorem read_specifiers (rest : List Token) (module : Text) :
    read place.front.head.name module (place.tokens ++ (specifiers ++ rest)) =
      (read place.front.head.name module (place.tokens ++ rest)).map
        (Relocation.definition
          { shift := specifiers.length, tokens := place.tokens ++ (specifiers ++ rest) }) := by
  refine place.read_of_specified_eq ?_
  intro position definition notices property _
  exact readSpecified_append_state areSpecifiers rfl _ rest

/-- A known function name starts a declaration, as if it stood on the next line. -/
theorem read_builtin (builtin : stop.kind = .builtinName) (more : List Token) (module : Text) :
    read place.front.head.name module (place.tokens ++ (specifiers ++ feed.val :: stop :: more)) =
      (read place.front.head.name module
        (place.tokens ++ (specifiers ++ stop :: more))).map
          (Relocation.definition
            { shift := 1
              tokens := place.tokens ++ (specifiers ++ feed.val :: stop :: more) }) := by
  have ends : EndsBare stop := .of_builtin builtin
  refine place.read_of_specified_eq ?_
  intro position definition notices property isThere move
  have joined := @readSpecified_bare position definition notices stop specifiers areSpecifiers ends
    [] (.inl rfl) more place.start.token.value property isThere
  have broken := @readSpecified_bare position (move.definition definition) notices stop
    specifiers areSpecifiers ends [feed.val] (.inr rfl) more place.start.token.value
    property isThere
  rw [nil_append] at joined
  rw [singleton_append] at broken
  rw [joined, broken]
  rfl

/-- At a token that is no part of a property block the class is given up. -/
theorem read_foreign (ends : EndsBlock stop) (more : List Token) (module : Text) :
    read place.front.head.name module (place.tokens ++ (specifiers ++ stop :: more)) =
      let found :=
        place.front.definition module (place.tokens ++ (specifiers ++ stop :: more))
      ⟨.ok { found with
          properties := place.start.endedBare place.head.attributes
            (place.entered found.properties) },
        [.expectedProperty module place.front.head.name stop.kind.label stop.value.quoted]⟩ := by
  obtain ⟨previous, space, passed, spaced, read⟩ := place.exists_readProperties
  obtain ⟨later, reading⟩ := place.front.exists_reading .properties module
  have regrouped : place.tokens ++ (specifiers ++ stop :: more) = place.front.tokens ++
      BlockSort.properties.opening :: (place.blockTokens ++ (specifiers ++ stop :: more)) := by
    simp [tokens]
  obtain ⟨state, halted, found, notices⟩ := @readDeclarations_start_foreign
    (place.front.tokens.length + passed)
    { place.front.definition module (place.tokens ++ (specifiers ++ stop :: more)) with
      properties := place.entered (place.front.definition module
        (place.tokens ++ (specifiers ++ stop :: more))).properties } [] stop place.start
    place.head.attributes previous space spaced specifiers areSpecifiers ends more
  rw [regrouped] at halted found
  rw [regrouped, ClassDef.read]
  dsimp only
  rw [reading, BlockSort.read, read, halted]
  show (⟨.ok state.definition, state.notices⟩ : Reading ClassDef) = _
  rw [found, notices]
  rfl

end DeclarationPlace

/-! ## Validated declarations -/

/-- A declaration with tokens between its name and the rest that the reader passes over. -/
structure ValidatedDeclaration where
  layout : DeclarationLayout
  specifiers : List Token
  areSpecifiers : ∀ token ∈ specifiers, ClassState.isSpecifier token

def ValidatedDeclaration.tokens (declaration : ValidatedDeclaration) : List Token :=
  declaration.layout.start.tokens ++ (declaration.specifiers ++ declaration.layout.endTokens)

theorem Reading.map_map {α β γ : Type} (reading : Reading α) (first : α → β) (second : β → γ) :
    (reading.map first).map second = reading.map fun value => second (first value) := by
  obtain ⟨result, notices⟩ := reading
  cases result <;> rfl

theorem Relocation.definition_definition (first second : Nat) (tokens others : List Token)
    (definition : ClassDef) :
    Relocation.definition { shift := second, tokens := others }
        (Relocation.definition { shift := first, tokens } definition) =
      Relocation.definition { shift := first + second, tokens := others } definition := by
  simp [Relocation.definition, Function.comp_def, Nat.add_assoc, id]

/-- Where a declaration stands in a class, below declarations with or without validation. -/
structure ValidatedPlace where
  front : ClassFront
  head : AttributePart propertyAttributes
  headEnd : LineEndToken
  members : List ValidatedDeclaration
  areApart : DeclarationLayout.areApart (members.map ValidatedDeclaration.layout)
  start : DeclarationStart
  ends : DeclarationLayout.EndsApart (members.map ValidatedDeclaration.layout) start.gap start.first

namespace ValidatedPlace

variable (place : ValidatedPlace)

def plain : DeclarationPlace :=
  ⟨place.front, place.head, place.headEnd, place.members.map ValidatedDeclaration.layout,
    place.areApart, place.start, place.ends⟩

def headTokens : List Token :=
  place.front.tokens ++ BlockSort.properties.opening :: (place.head.tokens ++ [place.headEnd.val])

def tokens : List Token :=
  place.headTokens ++ (place.members.flatMap ValidatedDeclaration.tokens ++ place.start.tokens)

def validationLength : Nat :=
  (place.members.flatMap ValidatedDeclaration.specifiers).length

/-- The validation of declarations can be left out, whatever stands behind them. -/
private theorem read_members (done : List DeclarationLayout) (pending : List ValidatedDeclaration)
    (apart : DeclarationLayout.areApart (done ++ pending.map ValidatedDeclaration.layout))
    (rest : List Token) (module : Text) :
    let plain := place.headTokens ++ (done.flatMap DeclarationLayout.tokens ++
      ((pending.map ValidatedDeclaration.layout).flatMap DeclarationLayout.tokens ++ rest))
    let validated := place.headTokens ++ (done.flatMap DeclarationLayout.tokens ++
      (pending.flatMap ValidatedDeclaration.tokens ++ rest))
    read place.front.head.name module validated =
      (read place.front.head.name module plain).map
        (Relocation.definition
          { shift := (pending.flatMap ValidatedDeclaration.specifiers).length
            tokens := validated }) := by
  induction pending generalizing done with
  | nil => exact Relocation.read_self _ _ _
  | cons declaration pending ih =>
    intro plain validated
    obtain ⟨doneApart, ends⟩ := DeclarationLayout.endsApart_of_areApart declaration.layout apart
    -- The validation of the first declaration is left out, and then that of the others.
    let here : DeclarationPlace := ⟨place.front, place.head, place.headEnd, done, doneApart,
      declaration.layout.start, ends⟩
    let behind := declaration.layout.endTokens ++
      (pending.flatMap ValidatedDeclaration.tokens ++ rest)
    have first := here.read_specifiers declaration.areSpecifiers behind module
    have others := ih (done ++ [declaration.layout]) (by simpa using apart)
    have validatedShape : here.tokens ++ (declaration.specifiers ++ behind) = validated := by
      simp [here, behind, validated, DeclarationPlace.tokens, DeclarationPlace.blockTokens,
        headTokens, ValidatedDeclaration.tokens]
    have middleShape : here.tokens ++ behind = place.headTokens ++
        ((done ++ [declaration.layout]).flatMap DeclarationLayout.tokens ++
          (pending.flatMap ValidatedDeclaration.tokens ++ rest)) := by
      simp [here, behind, DeclarationPlace.tokens, DeclarationPlace.blockTokens, headTokens,
        declaration.layout.tokens_eq_start_append]
    have plainShape : place.headTokens ++
        ((done ++ [declaration.layout]).flatMap DeclarationLayout.tokens ++
          ((pending.map ValidatedDeclaration.layout).flatMap DeclarationLayout.tokens ++ rest)) =
        plain := by
      simp [plain]
    rw [validatedShape, middleShape] at first
    rw [plainShape] at others
    rw [first, others, Reading.map_map]
    simp [Relocation.definition_definition, Nat.add_comm declaration.specifiers.length]

theorem read_plain (rest : List Token) (module : Text) :
    read place.front.head.name module (place.tokens ++ rest) =
      (read place.front.head.name module (place.plain.tokens ++ rest)).map
        (Relocation.definition
          { shift := place.validationLength, tokens := place.tokens ++ rest }) := by
  have read := place.read_members [] place.members place.areApart (place.start.tokens ++ rest)
    module
  have plainShape : place.plain.tokens ++ rest = place.headTokens ++ (flatMap
      DeclarationLayout.tokens [] ++ ((place.members.map ValidatedDeclaration.layout).flatMap
        DeclarationLayout.tokens ++ (place.start.tokens ++ rest))) := by
    simp [plain, DeclarationPlace.tokens, DeclarationPlace.blockTokens, headTokens]
  have shape : place.tokens ++ rest = place.headTokens ++ (flatMap
      DeclarationLayout.tokens [] ++ (place.members.flatMap ValidatedDeclaration.tokens ++
        (place.start.tokens ++ rest))) := by
    simp [tokens]
  rw [plainShape, shape]
  exact read

section

variable {specifiers : List Token}
  (areSpecifiers : ∀ token ∈ specifiers, ClassState.isSpecifier token)
include areSpecifiers

theorem read_specifiers (rest : List Token) (module : Text) :
    read place.front.head.name module (place.tokens ++ (specifiers ++ rest)) =
      (read place.front.head.name module (place.plain.tokens ++ rest)).map
        (Relocation.definition
          { shift := specifiers.length + place.validationLength
            tokens := place.tokens ++ (specifiers ++ rest) }) := by
  have read := place.plain.read_specifiers areSpecifiers rest module
  rw [place.read_plain]
  refine (congrArg (Reading.map _) read).trans ?_
  simp only [Reading.map_map, Relocation.definition_definition]
  rfl

theorem read_builtin {stop : Token} (builtin : stop.kind = .builtinName) (more : List Token)
    (module : Text) :
    read place.front.head.name module (place.tokens ++ (specifiers ++ feed.val :: stop :: more)) =
      (read place.front.head.name module
        (place.tokens ++ (specifiers ++ stop :: more))).map
          (Relocation.definition
            { shift := 1
              tokens := place.tokens ++ (specifiers ++ feed.val :: stop :: more) }) := by
  have read := place.plain.read_builtin areSpecifiers builtin more module
  rw [place.read_plain, place.read_plain (specifiers ++ stop :: more)]
  refine (congrArg (Reading.map _) read).trans ?_
  simp only [Reading.map_map, Relocation.definition_definition, Nat.add_comm 1]
  rfl

theorem read_foreign {stop : Token} (ends : ClassState.EndsBlock stop) (more : List Token)
    (module : Text) :
    read place.front.head.name module (place.tokens ++ (specifiers ++ stop :: more)) =
      let found := place.front.definition module (place.tokens ++ (specifiers ++ stop :: more))
      ⟨.ok { found with
          properties := place.start.endedBare place.head.attributes
            (place.plain.entered found.properties) },
        [.expectedProperty module place.front.head.name stop.kind.label stop.value.quoted]⟩ := by
  have read := place.plain.read_foreign areSpecifiers ends more module
  rw [place.read_plain]
  exact congrArg (Reading.map _) read

end

theorem isClassCode {code : Text} {rest : List Token}
    (lexed : lex (prepareCode code) = place.tokens ++ rest) : Definition.IsClassCode code := by
  rw [Definition.IsClassCode, lexed]
  rfl

private theorem isClassCode_plain {code : Text} {rest : List Token}
    (lexed : lex (prepareCode code) = place.plain.tokens ++ rest) :
    Definition.IsClassCode code := by
  rw [Definition.IsClassCode, lexed]
  rfl

end ValidatedPlace

namespace Definition

/-- What stands behind the name of a property is passed over as long as it consists of names,
integers, strings, blanks and the signs that the reader knows.  The class is read like the one in
which neither this declaration nor those above it have such tokens, whatever follows: a default
value, a comment, other declarations and other blocks.  If that class is made of parts, these say
what is found.  If a known function name follows, this is taken for the next property, as if it
stood on a line of its own.  If an operator, a decimal number or a square bracket follows, the
class is given up with a notice: the property stays without a value, and nothing of what follows
is found. -/
theorem validation_passed_over (place : ValidatedPlace) {specifiers rest : List Token}
    (areSpecifiers : ∀ token ∈ specifiers, ClassState.isSpecifier token) {code : Text}
    (written : lex (prepareCode code) = place.tokens ++ (specifiers ++ rest)) (module : Text) :
    (∃ reading : Reading ClassDef,
      (∀ plain, lex (prepareCode plain) = place.plain.tokens ++ rest →
        ofCode place.front.head.name module plain = reading.map .class) ∧
      (∀ file : ClassFile, file.head.name = place.front.head.name →
        file.tokens = place.plain.tokens ++ rest →
        reading = ⟨.ok (file.definition module), []⟩) ∧
      ofCode place.front.head.name module code = (reading.map fun definition =>
        { definition with
          tokens := lex (prepareCode code)
          index := definition.index.map
            (· + (specifiers.length + place.validationLength)) }).map .class) ∧
    (∀ stop ∈ rest.head?, stop.kind = .builtinName →
      ∃ reading : Reading ClassDef,
        ofCode place.front.head.name module code = reading.map .class ∧
        ∀ broken, lex (prepareCode broken) =
            place.tokens ++ (specifiers ++ LineEndToken.feed.val :: rest) →
          ofCode place.front.head.name module broken = (reading.map fun definition =>
            { definition with
              tokens := lex (prepareCode broken)
              index := definition.index.map (· + 1) }).map .class) ∧
    (∀ stop ∈ rest.head?, stop.kind = .operator ∨ stop.kind = .float ∨
        stop = ⟨.punctuation, "["⟩ ∨ stop = ⟨.punctuation, "]"⟩ →
      let found := place.front.definition module (lex (prepareCode code))
      ofCode place.front.head.name module code =
        ⟨.ok (.class { found with
            properties := place.start.endedBare place.head.attributes
              (place.plain.entered found.properties) }),
          [.expectedProperty module place.front.head.name stop.kind.label stop.value.quoted]⟩) := by
  have ofRead := ofCode_of_isClassCode (place.isClassCode written) place.front.head.name module
  refine ⟨⟨ClassDef.read place.front.head.name module (place.plain.tokens ++ rest), ?_, ?_, ?_⟩,
    ?_, ?_⟩
  · intro plain rewritten
    rw [ofCode_of_isClassCode (place.isClassCode_plain rewritten), rewritten]
  · intro file name shape
    rw [← name, ← shape, file.read_tokens]
  · rw [ofRead, written, place.read_specifiers areSpecifiers]
    rfl
  · intro stop first builtin
    obtain ⟨more, rfl⟩ := List.head?_eq_some_iff.mp first
    refine ⟨_, ofRead, fun broken rewritten => ?_⟩
    rw [ofCode_of_isClassCode (place.isClassCode rewritten), rewritten, written,
      place.read_builtin areSpecifiers builtin]
    rfl
  · intro stop first foreign
    obtain ⟨more, rfl⟩ := List.head?_eq_some_iff.mp first
    intro found
    rw [ofRead, written, place.read_foreign areSpecifiers (.of_foreign foreign), ← written]
    rfl

def lidDeclaration : DeclarationLayout where
  before := []
  spaced := forall_mem_empty ClassState.isSpacing
  comments := []
  indent := []
  name := "lid"
  value := some
    { beforeEquals := [.blank], beforeValue := [.blank], tokens := [⟨.integer, "2"⟩]
      oneLine := by decide, unindented := by decide, hasText := by decide
      lines := [], nested := by rw [ValueLine.Nested]; decide }
  blanks := []
  below := none
  comment := none
  lineEnd := .feed
  blanksBehindValue := nofun
  endsBehindValue := nofun
  endsBehindName := nofun
  belowValue := nofun

def sidesDeclaration : DeclarationLayout :=
  { lidDeclaration with
    name := "sides"
    blanks := [.blank]
    comment := some "% all"
    blanksBehindValue := by simp [IndentToken.blank]
    endsBehindValue := fun _ _ => by decide
    endsBehindName := nofun
    belowValue := nofun }

def crateProperties : DeclarationBlock where
  head := (⟨[], none⟩ : AttributeLayout propertyAttributes).part
  headEnd := .feed
  members := [lidDeclaration, sidesDeclaration]
  beforeEnd := []
  spaced := forall_mem_empty ClassState.isSpacing
  lineEnd := .feed

def crateFile : ClassFile :=
  { ClassFile.bare .blank "Crate" .feed [crateProperties.part] with
    rest := [feed.val] }

def cratePlace : ValidatedPlace where
  front :=
    { head := (HeadLayout.bare .blank "Crate" .feed).part
      lead := [], commentary := forall_mem_empty ClassState.isCommentary, apart := apart_nil
      blocks := [] }
  head := crateProperties.head
  headEnd := .feed
  members := [⟨lidDeclaration, [⟨.text, " "⟩, ⟨.punctuation, "("⟩, ⟨.integer, "1"⟩,
    ⟨.punctuation, ","⟩, ⟨.punctuation, ":"⟩, ⟨.punctuation, ")"⟩], by decide⟩]
  areApart := by decide
  start := sidesDeclaration.start
  ends := fun _ _ _ => .inr rfl

def crateValidation : List Token :=
  [⟨.text, " "⟩, ⟨.punctuation, "\x7b"⟩, ⟨.name, "mustBePositive"⟩, ⟨.punctuation, "\x7d"⟩]

def crateRest : List Token :=
  sidesDeclaration.endTokens ++ [Token.ending, feed.val, Token.ending, feed.val]

def crateCode : Text :=
  "classdef Crate\nproperties\nlid (1,:) = 2\n" ++
    ("sides \x7bmustBePositive\x7d = 2 % all\nend\nend\n" : Text)

theorem validation_passed_over_crate :
    (∀ token ∈ crateValidation, ClassState.isSpecifier token) ∧
    lex (prepareCode crateCode) = cratePlace.tokens ++ (crateValidation ++ crateRest) ∧
    (crateFile.definition "p").properties.get? "sides" =
      some { attributes := {}, default? := some (some "2"), docstring? := some (some " all") } ∧
    ofCode "Crate" "p" crateCode =
      ⟨.ok (.class { crateFile.definition "p" with
        tokens := lex (prepareCode crateCode)
        index := (crateFile.definition "p").index.map (· + 10) }), []⟩ := by
  have areSpecifiers : ∀ token ∈ crateValidation, ClassState.isSpecifier token := by decide
  have written : lex (prepareCode crateCode) =
      cratePlace.tokens ++ (crateValidation ++ crateRest) := by
    decide +kernel
  have plain : crateFile.tokens = cratePlace.plain.tokens ++ crateRest := by decide
  obtain ⟨⟨reading, _, parts, read⟩, _⟩ :=
    validation_passed_over cratePlace areSpecifiers written "p"
  rw [parts crateFile rfl plain] at read
  exact ⟨areSpecifiers, written, by decide, read⟩

def validatedCode (validation : Text) : Text :=
  "classdef A\n    properties\n        x \x7b" ++
    (validation ++ ("\x7d = 1\n        y\n    end\nend\n" : Text))

def propertyDefaults : Definition → List (Text × Option (Option Text))
  | .class definition => definition.properties.entries.map fun entry => (entry.1, entry.2.default?)
  | _ => []

def defaultsFound (code : Text) : Except Fault (List (Text × Option (Option Text))) :=
  (ofCode "A" "p" code).result.map propertyDefaults

/-- A sign in a validation hides the default value and all later properties, and a known function
name in it is taken for a property. -/
theorem validation_misread :
    defaultsFound (validatedCode "mustBeGreaterThan(x, -1)") = .ok [("x", some none)] ∧
    defaultsFound (validatedCode "mustBeLessThan(x, pi)") =
      .ok [("x", some none), ("pi", some (some "1")), ("y", some none)] := by
  decide +kernel

end Definition

end MatlabDocs
