import MatlabDocs.Proofs.Class.Halts

/-!
# How the reading of properties halts

A declaration enters its property before the rest of it is read, and the rest completes the
property.  So at most one property is not known in full at a time: the one whose declaration
is being read.
-/

set_option mvcgen.warning false

namespace MatlabDocs

open List

theorem Valueless.of_suffix {tokens fewer : List Token} (valueless : Valueless fewer)
    (suffix : fewer <:+ tokens) : Valueless tokens := by
  obtain ⟨blanks, stop, rest, place, isBlank, isSilent⟩ := valueless
  exact ⟨blanks, stop, rest, place.trans suffix, isBlank, isSilent⟩

namespace ClassState

variable {tokens : List Token} {exception : Option Text} {name : Text}
variable {start middle state after : ClassState} {stop : Halt} {token : Token}

@[grind →] theorem valueless_of_moved (moved : Moved start state)
    (valueless : Valueless state.rest) : Valueless start.rest :=
  valueless.of_suffix moved.rest

/-- The next token gives a default value no text. -/
def StartsSilent (tokens : List Token) : Prop :=
  ∃ token more, tokens = token :: more ∧ (token.isNewline ∨ token.isComment ∨ token.value = [])

theorem startsSilent (atToken : state.rest = token :: state.rest.tail)
    (silent : token.isNewline ∨ token.isComment ∨ token.value = []) : StartsSilent state.rest :=
  ⟨token, _, atToken, silent⟩

/-- The halt follows the state, and every reading that comes to the state explains it; at the start
of a line it has just passed a line end. -/
structure StopsAt (lineStart : Bool) (state : ClassState) (stop : Halt) : Prop where
  follows : Follows state stop.state
  explained {tokens : List Token} {exception : Option Text} : Ready tokens exception state →
    (lineStart → ∃ lineEnd : Token, lineEnd.isNewline ∧ lineEnd :: state.rest <:+ tokens) →
    stop.Explained tokens

@[grind ←] theorem Stops.stopsAt {lineStart : Bool} (stops : Stops state stop) :
    StopsAt lineStart state stop :=
  ⟨stops.follows, fun ready _ => stops.explained ready⟩

@[grind →] theorem StopsAt.of_false (stops : StopsAt false state stop) : Stops state stop :=
  ⟨stops.follows, fun ready => stops.explained ready nofun⟩

@[grind →] theorem StopsAt.of_advance {lineStart : Bool}
    (stops : StopsAt lineStart (state.advance 1) stop)
    (atToken : state.rest = token :: state.rest.tail) (newline : lineStart → token.isNewline) :
    Stops state stop := by
  have next := Moved.advance state 1
  refine ⟨next.toFollows.trans stops.follows, fun ready => ?_⟩
  refine stops.explained (ready.of_moved next) fun isStart => ⟨token, newline isStart, ?_⟩
  rw [rest_advance, drop_one, ← atToken]
  exact ready.place

theorem stopsAt_stuck (moved : Moved state after) (atToken : state.rest = token :: state.rest.tail)
    (indented : after.rest = state.rest.dropWhile Token.isIndent)
    (notShorter : state.rest.length ≤ after.rest.length)
    (foreign : (isOpening token || isClosing token || isEllipsis token) = false) :
    StopsAt true state ⟨.stuck .defaultValue, after⟩ := by
  refine ⟨moved.toFollows, fun {tokens exception} ready newLine => ?_⟩
  obtain ⟨lineEnd, newline, place⟩ := newLine rfl
  have same : after.rest = token :: state.rest.tail := by
    rw [indented] at notShorter ⊢
    rw [← atToken]
    exact (dropWhile_suffix _).eq_of_length_le notShorter
  have notIndent := test_of_dropWhile (indented.symm.trans same)
  refine .stuck ?_
  rw [atToken] at place
  rw [same]
  refine .inDefaultValue place newline ?_
  simpa [isLineStart, notIndent] using foreign

/-- A default value is empty only if its first token is silent.  It is stuck only at the start
of a line. -/
@[spec] theorem readDefault_yields (depth : Int) (lineStart : Bool) (value : Text)
    (state : ClassState) :
    Yields (readDefault depth lineStart value state)
      (fun found => Moved state found.2 ∧
        ((lineStart → value ≠ []) → found.1 = [] → value = [] ∧ StartsSilent state.rest))
      (StopsAt lineStart state) := by
  rw [readDefault]
  mvcgen [progressing, readDefault_yields]
  all_goals grind -ring -linarith [startsSilent, stopsAt_stuck,
    isEllipsis, append_eq_nil_iff]
termination_by state.rest.length

private theorem valueless_of_silent (atToken : state.rest = token :: state.rest.tail)
    (equals : token.isPunctuation "=")
    (startRest : after.rest = (state.advance 1).rest.dropWhile Token.isIndent)
    (silent : StartsSilent after.rest) : Valueless state.rest := by
  obtain ⟨next, others, atNext, silent⟩ := silent
  obtain rfl : token = ⟨.punctuation, "="⟩ := eq_of_beq equals
  refine ⟨state.rest.tail.takeWhile Token.isIndent, next, others, ?_, ?_, silent⟩
  · rw [← atNext, startRest, rest_advance, drop_one, takeWhile_append_dropWhile, ← atToken]
  · exact all_eq_true.mp all_takeWhile

@[spec] theorem readDefaultValue_yields (state : ClassState) :
    Yields (readDefaultValue state)
      (fun found => Moved state found.2 ∧ (found.1 = none → Valueless state.rest))
      (Stops state) := by
  mvcgen [readDefaultValue] with grind -ring -linarith [valueless_of_silent]

section

/-- Only commentary has been passed over. -/
structure PassesComments (start state : ClassState) : Prop where
  moved : Moved start state
  passed : ∃ passed, start.rest = passed ++ state.rest ∧ ∀ token ∈ passed, isCommentary token

namespace PassesComments

theorem refl (state : ClassState) : PassesComments state state :=
  ⟨.refl state, [], rfl, nofun⟩

grind_pattern refl => PassesComments state state

@[grind →] theorem trans (first : PassesComments start middle)
    (second : PassesComments middle state) : PassesComments start state := by
  refine ⟨first.moved.trans second.moved, ?_⟩
  obtain ⟨passed, isPassed, commentary⟩ := first.passed
  obtain ⟨further, isFurther, more⟩ := second.passed
  refine ⟨passed ++ further, by rw [isPassed, isFurther, append_assoc], ?_⟩
  exact fun token member => (mem_append.mp member).elim (commentary token) (more token)

@[grind →] theorem advance (atToken : state.rest = token :: state.rest.tail)
    (commentary : isCommentary token) : PassesComments state (state.advance 1) := by
  refine ⟨.advance state 1, [token], ?_, by simpa using commentary⟩
  rw [rest_advance, drop_one, singleton_append, ← atToken]

theorem of_dropWhile {test : Token → Bool} (commentary : ∀ token, test token → isCommentary token)
    (moved : Moved start state) (rest : state.rest = start.rest.dropWhile test) :
    PassesComments start state := by
  refine ⟨moved, start.rest.takeWhile test, ?_, ?_⟩
  · rw [rest, takeWhile_append_dropWhile]
  · exact fun token member => commentary token (all_eq_true.mp all_takeWhile token member)

@[grind →] theorem skipIndent (moved : Moved start state)
    (rest : state.rest = start.rest.dropWhile Token.isIndent) : PassesComments start state :=
  of_dropWhile isCommentary_of_isIndent moved rest

@[grind →] theorem skipSpacing (moved : Moved start state)
    (rest : state.rest = start.rest.dropWhile isSpacing) : PassesComments start state :=
  of_dropWhile isCommentary_of_isSpacing moved rest

theorem atBlockStart (passes : PassesComments start state)
    (opened : AtBlockStart tokens start.rest) : AtBlockStart tokens state.rest := by
  obtain ⟨opening, passed, isOpening, commentary, place⟩ := opened
  obtain ⟨further, isFurther, more⟩ := passes.passed
  refine ⟨opening, passed ++ further, isOpening, ?_, ?_⟩
  · exact fun token member => (mem_append.mp member).elim (commentary token) (more token)
  · rwa [append_assoc, ← isFurther]

end PassesComments

attribute [grind →] PassesComments.moved

/-- The state after a comment line, whether or not its line end is the last token. -/
def PassesLine (state : ClassState) : Except ClassState (Text × ClassState) → Prop
  | .ok (_, after) => PassesComments state after
  | .error after => PassesComments state after

@[spec] theorem readCommentEnd_yields (docstring : Text) (state : ClassState) :
    Yields (readCommentEnd docstring state) (PassesLine state) (Exhausts state) := by
  have indent := fun after => @Yields.of_ok _ _ _ _ (skipIndent_yields (state.advance 1)) after
  mvcgen [readCommentEnd] with grind -ring -linarith [PassesLine, isCommentary_of_isNewline]

/-- Comment lines lead to a property that they document, or to something else. -/
inductive Commented (name : Text) (state : ClassState) : Text × ClassState → Prop where
  | unchanged {after : ClassState} (passes : PassesComments state after) :
      Commented name state (name, after)
  | documents {before : ClassState} {token : Token} (property : PropertyDef)
      (moved : Moved state before) (atToken : before.rest = token :: before.rest.tail)
      (isName : token.kind = .name) :
      Commented name state (token.value, before.setProperty token.value property)

attribute [grind ←] Commented.unchanged Commented.documents

@[grind →] theorem Commented.of_passes {found : Text × ClassState}
    (passes : PassesComments start state) (commented : Commented name state found) :
    Commented name start found := by
  cases commented with
  | unchanged further => exact .unchanged (passes.trans further)
  | documents property moved atToken isName =>
    exact .documents property (passes.moved.trans moved) atToken isName

@[spec] theorem readPropertyComment_yields (attributes : Attributes) (name docstring : Text)
    (state : ClassState) :
    Yields (readPropertyComment attributes name docstring state) (Commented name state)
      (Exhausts state) := by
  have spacing := fun start after => @Yields.of_ok _ _ _ _ (skipSpacing_yields start) after
  rw [readPropertyComment]
  mvcgen [progressing, readPropertyComment_yields]
    with grind -ring -linarith [PassesLine, isCommentary_of_isComment]
termination_by state.rest.length

end

section

namespace Ready

@[grind →] theorem explained (ready : Ready tokens exception state) (stops : Stops state stop) :
    stop.Explained tokens :=
  stops.explained ready

@[grind ←] theorem weaken (ready : Ready tokens none state) : Ready tokens exception state :=
  ⟨ready.place, ready.recorded.nodup,
    fun entry member => (ready.recorded.complete entry member).imp_left nofun⟩

theorem setProperty (ready : Ready tokens (some name) state) (property : PropertyDef) :
    Ready tokens (some name) (state.setProperty name property) := by
  refine ⟨ready.place, Table.nodup_insertEntry ready.recorded.nodup, ?_⟩
  intro entry member
  rcases Table.mem_insertEntry ready.recorded.nodup member with rfl | ⟨old, -⟩
  · exact .inl rfl
  · exact ready.recorded.complete entry old

theorem completed (ready : Ready tokens (some name) state)
    (complete : ∀ property, state.property? name = some property →
      property.IsComplete ∨ Valueless tokens) : Ready tokens none state := by
  refine ⟨ready.place, ready.recorded.nodup, fun entry member => .inr ?_⟩
  rcases ready.recorded.complete entry member with same | isComplete
  · refine complete entry.2 ?_
    rw [← Option.some.inj same]
    exact Table.get?_of_mem ready.recorded.nodup member
  · exact isComplete

end Ready

/-- Tokens have been passed over, and at most the property of this name was changed. -/
structure Edited (name : Text) (start state : ClassState) : Prop extends Follows start state where
  ready {tokens : List Token} : Ready tokens (some name) start → Ready tokens (some name) state
  known : (start.property? name).isSome → (state.property? name).isSome

@[grind ←] theorem Moved.edited (moved : Moved start state) : Edited name start state :=
  ⟨moved.toFollows, fun ready => ready.of_moved moved, fun known => moved.property?_eq name ▸ known⟩

namespace Edited

@[grind →] theorem trans (first : Edited name start middle) (second : Edited name middle state) :
    Edited name start state :=
  ⟨first.toFollows.trans second.toFollows, fun ready => second.ready (first.ready ready),
    fun known => second.known (first.known known)⟩

@[grind →] theorem of_moved (moved : Moved start middle) (edited : Edited name middle state) :
    Edited name start state :=
  moved.edited.trans edited

@[grind →] theorem moved (edited : Edited name start middle) (moved : Moved middle state) :
    Edited name start state :=
  edited.trans moved.edited

theorem setProperty (state : ClassState) (name : Text) (property : PropertyDef) :
    Edited name state (state.setProperty name property) :=
  ⟨⟨suffix_rfl, rfl⟩, fun ready => ready.setProperty property, fun _ => by simp⟩

grind_pattern setProperty => state.setProperty name property

@[grind →] theorem length_le (edited : Edited name start state) :
    state.rest.length ≤ start.rest.length :=
  edited.rest.length_le

end Edited

attribute [grind →] Edited.toFollows Edited.ready Follows.rest Ready.of_moved

/-- A property is unknown only if nothing but a semicolon stands in its place. -/
def IsKnown (tokens : List Token) (name : Text) (state : ClassState) : Prop :=
  (state.property? name).isSome ∨ LeadingSemicolon tokens

@[grind ←] theorem isKnown_of_isSome (known : (state.property? name).isSome) :
    IsKnown tokens name state :=
  .inl known

/-- The halt follows the state, and every reading that comes to the state while it reads the
property
explains it. -/
structure StopsWithin (name : Text) (state : ClassState) (stop : Halt) : Prop where
  follows : Follows state stop.state
  explained {tokens : List Token} : Ready tokens (some name) state →
    IsKnown tokens name state → stop.Explained tokens

namespace StopsWithin

attribute [grind →] follows
grind_pattern explained => StopsWithin name state stop, stop.Explained tokens

@[grind ←] theorem of_stops (stops : Stops state stop) : StopsWithin name state stop :=
  ⟨stops.follows, fun ready _ => ready.explained stops⟩

@[grind →] theorem of_edited (edited : Edited name start state)
    (stops : StopsWithin name state stop) : StopsWithin name start stop where
  follows := edited.toFollows.trans stops.follows
  explained ready known := stops.explained (edited.ready ready) (known.imp_left edited.known)

@[grind →] theorem of_moved (moved : Moved start state) (stops : StopsWithin name state stop) :
    StopsWithin name start stop :=
  stops.of_edited moved.edited

@[grind →] theorem of_edited_stops (edited : Edited name start state) (stops : Stops state stop) :
    StopsWithin name start stop :=
  of_edited edited (of_stops stops)

@[grind ←] theorem unknown (moved : Moved start state) (unknown : state.property? name = none) :
    StopsWithin name start ⟨.fault .unknownProperty, state⟩ := by
  refine ⟨moved.toFollows, fun _ known => .unknownProperty (known.resolve_left ?_)⟩
  rw [← moved.property?_eq, unknown]
  exact nofun

end StopsWithin

/-- The property has been completed, unless its value is missing. -/
structure Completes (name : Text) (start state : ClassState) : Prop where
  edited : Edited name start state
  known : (state.property? name).isSome
  complete : ∀ property, state.property? name = some property →
    property.IsComplete ∨ Valueless start.rest

namespace Completes

attribute [grind ←] mk
attribute [grind →] edited

@[grind →] theorem of_edited (edited : Edited name start middle)
    (completes : Completes name middle state) : Completes name start state where
  edited := edited.trans completes.edited
  known := completes.known
  complete property found :=
    (completes.complete property found).imp_right fun valueless => valueless.of_suffix edited.rest

@[grind →] theorem of_moved (moved : Moved start middle) (completes : Completes name middle state) :
    Completes name start state :=
  completes.of_edited moved.edited

end Completes

attribute [grind =] property?_setProperty
attribute [grind] PropertyDef.IsComplete

@[spec] theorem readPropertyEnd_yields (name : Text) (state : ClassState) :
    Yields (readPropertyEnd name state) (Completes name state) (StopsWithin name state) := by
  mvcgen [readPropertyEnd, updateProperty]
  all_goals grind -ring -linarith

@[spec] theorem readSemicolon_yields (name : Text) (state : ClassState) :
    Yields (readSemicolon name state)
      (fun
        | .next later after => later = name ∧ Completes name (state.advance 1) after
        | .ended _ => False)
      (StopsWithin name state) := by
  mvcgen [readSemicolon, updateProperty] with grind -ring -linarith

/-- Between two declarations all properties are known in full, except that a semicolon may
have yet to complete the last one. -/
inductive Between (tokens : List Token) (name : Text) (state : ClassState) : Prop where
  | settled (ready : Ready tokens none state)
      (known : (state.property? name).isSome ∨ AtBlockStart tokens state.rest)
  | pending (ready : Ready tokens (some name) state) (known : (state.property? name).isSome)
      (atSemicolon : state.rest = ⟨.punctuation, ";"⟩ :: state.rest.tail)

@[grind →] theorem Between.of_semicolon (ready : Ready tokens (some name) state)
    (atToken : state.rest = token :: state.rest.tail) (semicolon : token.isPunctuation ";")
    (known : (state.property? name).isSome) : Between tokens name state := by
  obtain rfl : token = ⟨.punctuation, ";"⟩ := eq_of_beq semicolon
  exact .pending ready known atToken

@[grind →] theorem Completes.between (completes : Completes name start state)
    (ready : Ready tokens exception start)
    (isException : exception = none ∨ exception = some name) :
    Between tokens name state := by
  have ready : Ready tokens (some name) start := by
    rcases isException with rfl | rfl
    · exact ready.weaken
    · exact ready
  refine .settled ?_ (.inl completes.known)
  refine (completes.edited.ready ready).completed fun property found => ?_
  exact (completes.complete property found).imp_right
    fun valueless => valueless.of_suffix ready.place

/-- A step within a property block. -/
def Steps (tokens : List Token) (state : ClassState) : PropertyStep → Prop
  | .next name after => Between tokens name after ∧ after.rest.length < state.rest.length
  | .ended after => Ready tokens none after

theorem readDeclaration_semicolon (attributes : Attributes) (name : Text)
    (atSemicolon : state.rest = ⟨.punctuation, ";"⟩ :: state.rest.tail) :
    readDeclaration attributes name state = readSemicolon name state := by
  obtain ⟨position, rest, definition, notices⟩ := state
  obtain ⟨more, rfl⟩ : ∃ more, rest = ⟨.punctuation, ";"⟩ :: more := ⟨_, atSemicolon⟩
  rw [readDeclaration, skipSpacing, skip_cons (by decide), Reads.ok_bind, readPropertyComment,
    peek_cons, Reads.ok_bind]
  rfl

section

variable {found : Text × ClassState} (commented : Commented name state found)
include commented

@[grind →] theorem Commented.follows : Follows state found.2 := by
  cases commented with
  | unchanged passes => exact passes.moved.toFollows
  | documents property moved atToken isName => exact moved.toFollows.trans ⟨suffix_rfl, rfl⟩

@[grind →] theorem Commented.ready (ready : Ready tokens none state)
    (atToken : found.2.rest = token :: found.2.rest.tail) :
    Ready tokens (some token.value) found.2 := by
  cases commented with
  | unchanged passes => exact (ready.of_moved passes.moved).weaken
  | documents property moved atName isName =>
    obtain rfl := (cons.inj (atName.symm.trans atToken)).1
    exact (ready.of_moved moved).weaken.setProperty property

@[grind →] theorem Commented.passes (atToken : found.2.rest = token :: found.2.rest.tail)
    (notName : token.kind ≠ .name) : found.1 = name ∧ PassesComments state found.2 := by
  cases commented with
  | unchanged passes => exact ⟨rfl, passes⟩
  | documents property moved atName isName =>
    obtain rfl := (cons.inj (atName.symm.trans atToken)).1
    contradiction

@[grind →] theorem Commented.explained (ready : Ready tokens none state)
    (exhausts : Exhausts found.2 stop) : stop.Explained tokens := by
  cases commented with
  | unchanged passes => exact (ready.of_moved passes.moved).explained exhausts.stops
  | documents property moved atName isName =>
    exact ((ready.of_moved moved).weaken.setProperty property).explained exhausts.stops

end

@[grind →] theorem isKnown_of_passes (passes : PassesComments state after)
    (known : (state.property? name).isSome ∨ AtBlockStart tokens state.rest)
    (atToken : after.rest = token :: after.rest.tail) (semicolon : token.isPunctuation ";") :
    IsKnown tokens name after := by
  obtain rfl : token = ⟨.punctuation, ";"⟩ := eq_of_beq semicolon
  refine known.imp (fun isSome => ?_) fun opened => ⟨after.rest.tail, ?_⟩
  · rwa [passes.moved.property?_eq]
  · exact atToken ▸ passes.atBlockStart opened

@[grind ←] theorem explained_expectedProperty {kind quoted : Text}
    (ready : Ready tokens none state) :
    Halt.Explained tokens ⟨.expectedProperty, state.notify
      (.expectedProperty state.definition.module state.definition.name kind quoted)⟩ :=
  .expectedProperty ready.recorded (mem_append_right _ mem_cons_self)

/-- The place that a step within a property block comes to. -/
@[grind] def PropertyStep.place : PropertyStep → ClassState
  | .next _ state => state
  | .ended state => state

theorem readDeclaration_follows (attributes : Attributes) (name : Text) (state : ClassState) :
    Yields (readDeclaration attributes name state) (fun step => Follows state step.place)
      (fun stop => Follows state stop.state) := by
  mvcgen [readDeclaration] with grind -ring -linarith

@[spec] theorem readDeclaration_yields (attributes : Attributes) (name : Text)
    (state : ClassState) :
    Yields (readDeclaration attributes name state)
      (fun step => Follows state step.place ∧
        ∀ tokens, Between tokens name state → Steps tokens state step)
      (fun stop => Follows state stop.state ∧
        ∀ tokens, Between tokens name state → stop.Explained tokens) := by
  refine (readDeclaration_follows attributes name state).and (.of_forall fun tokens between => ?_)
  cases between with
  | pending ready known atSemicolon =>
    rw [readDeclaration_semicolon attributes name atSemicolon]
    mvcgen
    all_goals grind -ring -linarith [Steps]
  | settled ready known =>
    mvcgen [readDeclaration] with grind -ring -linarith [Steps, Option.isNone_eq_false_iff]

@[grind →] theorem Between.explained (between : Between tokens name state)
    (exhausts : Exhausts state stop) : stop.Explained tokens := by
  cases between with
  | settled ready known => exact ready.explained exhausts.stops
  | pending ready known atSemicolon => exact ready.explained exhausts.stops

@[grind →] theorem Between.ready_of_end (between : Between tokens name state)
    (atToken : state.rest = token :: state.rest.tail) (ending : token.isKeyword "end") :
    Ready tokens none state := by
  cases between with
  | settled ready known => exact ready
  | pending ready known atSemicolon =>
    obtain rfl := (cons.inj (atSemicolon.symm.trans atToken)).1
    contradiction

/-- A property block is never stuck between its declarations. -/
@[spec] theorem readDeclarations_yields (attributes : Attributes) (name : Text)
    (state : ClassState) :
    Yields (readDeclarations attributes name state)
      (fun after => Follows state after ∧
        ∀ tokens, Between tokens name state → Ready tokens none after)
      (fun stop => Follows state stop.state ∧
        ∀ tokens, Between tokens name state → stop.Explained tokens) := by
  rw [readDeclarations]
  mvcgen [progressing, readDeclarations_yields] with grind -ring -linarith [Steps]
termination_by state.rest.length

end

section

/-- The halt follows the state, and every reading that comes to the state between two blocks
explains
it. -/
@[grind =] def BlockStops (state : ClassState) (stop : Halt) : Prop :=
  Follows state stop.state ∧ ∀ tokens, Ready tokens none state → stop.Explained tokens

/-- The state behind a part of a block follows the start, and all properties are known there. -/
@[grind =] def BlockReads (start state : ClassState) : Prop :=
  Follows (start.advance 1) state ∧ ∀ tokens, Ready tokens none start → Ready tokens none state

theorem between_of_head (ready : Ready tokens none start)
    (atKeyword : start.rest = ⟨.keyword, "properties"⟩ :: start.rest.tail)
    (moved : Moved (start.advance 1) state)
    (headEnd : state.rest = (start.advance 1).rest.dropWhile Token.isIndent ∨
      ⟨.punctuation, ")"⟩ :: state.rest <:+ (start.advance 1).rest) :
    Between tokens [] state := by
  have next := Moved.advance start 1
  refine .settled (ready.of_moved (next.trans moved)) (.inr ?_)
  rcases headEnd with noList | closed
  · refine (PassesComments.skipIndent moved noList).atBlockStart ⟨_, [], .inl rfl, nofun, ?_⟩
    rw [nil_append, rest_advance, drop_one, ← atKeyword]
    exact ready.place
  · exact ⟨_, [], .inr rfl, nofun, closed.trans (next.rest.trans ready.place)⟩

theorem readProperties_follows (state : ClassState) :
    Yields (readProperties state) (Follows (state.advance 1))
      (fun stop => Follows state stop.state) := by
  mvcgen [readProperties] with grind -ring -linarith

theorem readProperties_yields
    (atKeyword : state.rest = ⟨.keyword, "properties"⟩ :: state.rest.tail) :
    Yields (readProperties state) (BlockReads state) (BlockStops state) := by
  mvcgen [readProperties] with grind -ring -linarith [between_of_head]

variable (opening : Token)

/-- A block has been read if it opens with this token. -/
@[grind =] def PassesBlock (start state : ClassState) : Prop :=
  Follows start state ∧ (∀ tokens, Ready tokens none start → Ready tokens none state) ∧
    (start.rest.length ≤ state.rest.length →
      state.rest = start.rest ∧ start.rest.head? ≠ some opening)

theorem readBlock_yields {opening : Token} {read : ClassState → Reads ClassState}
    (reads : state.rest = opening :: state.rest.tail →
      Yields (read state) (BlockReads state) (BlockStops state)) :
    Yields (readBlock opening read state) (PassesBlock opening state) (BlockStops state) := by
  mvcgen [readBlock, reads] with grind -ring -linarith

@[spec] theorem readPropertyBlock_yields (state : ClassState) :
    Yields (readBlock ⟨.keyword, "properties"⟩ readProperties state)
      (PassesBlock ⟨.keyword, "properties"⟩ state) (BlockStops state) :=
  readBlock_yields readProperties_yields

@[spec] theorem readMethodBlock_yields (state : ClassState) :
    Yields (readBlock opening readMethods state) (PassesBlock opening state)
      (BlockStops state) := by
  refine readBlock_yields fun _ => ?_
  mvcgen with grind -ring -linarith

@[spec] theorem passBlock_reads (state : ClassState) :
    Yields (readBlock opening passBlock state) (PassesBlock opening state)
      (BlockStops state) := by
  refine readBlock_yields fun _ => ?_
  mvcgen with grind -ring -linarith

private theorem explained_blocks (place : state.rest <:+ tokens) 
    (atToken : state.rest = token :: state.rest.tail)
    (foreign : (isCommentary token || isBlockBound token) = false) :
    Halt.Explained tokens ⟨.stuck .blocks, state⟩ :=
  .stuck (atToken ▸ .betweenBlocks (atToken ▸ place) foreign)

@[spec] theorem readBlocks_yields (state : ClassState) :
    Yields (readBlocks state)
      (fun after => Follows state after ∧
        ∀ tokens, Ready tokens none state → Ready tokens none after)
      (BlockStops state) := by
  rw [readBlocks]
  mvcgen [progressing, readBlocks_yields]
  -- Nothing was read, so the first token is no commentary and opens no block.
  case vc4 first _ atFirst start skipped _ properties _ methods _ events after notShorter blocks =>
    have same := @IsSuffix.eq_of_length_le _ _ _ skipped.1.rest
    grind -ring -linarith [isBlockBound, explained_blocks, Ready.place]
  all_goals grind -ring -linarith
termination_by state.rest.length

end

end ClassState

end MatlabDocs
