import MatlabDocs.Definition.Class.Read
import MatlabDocs.Proofs.Class.MethodProgress

/-!
# How the reading of a class halts

Every loop of the class reader passes over at least one token in each round, except at three
places: between the blocks of a class, in an attribute list, and at the start of a line
within a default value.  A token that does not belong there keeps the loop where it is.
Otherwise the reading halts because the tokens run out, at a method without a body, or in a
property block, and all properties that were entered before are known in full.
-/

set_option mvcgen.warning false

namespace MatlabDocs

namespace ClassState

/-- The first token of a block of a class, or the `end` of the class. -/
def isBlockBound (token : Token) : Bool :=
  token.isKeyword "end" || token == ⟨.keyword, "properties"⟩ || token == ⟨.keyword, "methods"⟩ ||
    token == ⟨.keyword, "events"⟩ || token == ⟨.name, "enumeration"⟩

def isAttributePart (token : Token) : Bool :=
  token.isIndent || token.kind == .name || token.kind == .builtinName ||
    token.isPunctuation "," || token.isPunctuation "=" || token.isPunctuation ")"

/-- What a further line of a default value may start with. -/
def isLineStart (token : Token) : Bool :=
  token.isIndent || isOpening token || isClosing token || isEllipsis token

end ClassState

/-- The rest of the tokens starts with a token that the loop neither reads nor passes over. -/
inductive Misfit (tokens : List Token) : ReadingLoop → List Token → Prop where
  | betweenBlocks {token : Token} {rest : List Token} (place : token :: rest <:+ tokens)
      (foreign : (ClassState.isCommentary token || ClassState.isBlockBound token) = false) :
      Misfit tokens .blocks (token :: rest)
  | inAttributes {token : Token} {rest : List Token} (place : token :: rest <:+ tokens)
      (foreign : ClassState.isAttributePart token = false) :
      Misfit tokens .attributes (token :: rest)
  | inDefaultValue {lineEnd token : Token} {rest : List Token}
      (place : lineEnd :: token :: rest <:+ tokens) (newLine : lineEnd.isNewline)
      (foreign : ClassState.isLineStart token = false) :
      Misfit tokens .defaultValue (token :: rest)

/-- Somewhere an equals sign is followed by no value on its line. -/
def Valueless (tokens : List Token) : Prop :=
  ∃ blanks stop rest, ⟨.punctuation, "="⟩ :: (blanks ++ stop :: rest) <:+ tokens ∧
    (∀ blank ∈ blanks, blank.isIndent) ∧
    (stop.isNewline ∨ stop.isComment ∨ stop.value = [])

/-- The rest is what stands in a property block behind its head and some commentary.  A head
ends with its keyword or with the closing parenthesis of its attributes. -/
def AtBlockStart (tokens rest : List Token) : Prop :=
  ∃ opening passed, (opening = ⟨.keyword, "properties"⟩ ∨ opening = ⟨.punctuation, ")"⟩) ∧
    (∀ token ∈ passed, ClassState.isCommentary token) ∧ opening :: (passed ++ rest) <:+ tokens

/-- A property block in which a semicolon stands in the place of the first declaration. -/
def LeadingSemicolon (tokens : List Token) : Prop :=
  ∃ rest, AtBlockStart tokens (⟨.punctuation, ";"⟩ :: rest)

/-- Both the default value and the docstring have been looked for. -/
def PropertyDef.IsComplete (property : PropertyDef) : Prop :=
  property.default?.isSome ∧ property.docstring?.isSome

/-- All properties but the exception are known in full, unless a value is missing. -/
structure Recorded (tokens : List Token) (exception : Option Text)
    (properties : NameTable PropertyDef) : Prop where
  nodup : properties.keys.Nodup
  complete : ∀ entry ∈ properties.entries,
    some entry.1 = exception ∨ entry.2.IsComplete ∨ Valueless tokens

/-- What halts the reading of a class with these tokens. -/
inductive Halt.Explained (tokens : List Token) : Halt → Prop where
  | exhausted {state : ClassState} {exception : Option Text}
      (recorded : Recorded tokens exception state.definition.properties) :
      Explained tokens ⟨.exhausted, state⟩
  | expectedProperty {state : ClassState} {kind quoted : Text}
      (recorded : Recorded tokens none state.definition.properties)
      (reported : Notice.expectedProperty state.definition.module state.definition.name kind
        quoted ∈ state.notices) :
      Explained tokens ⟨.expectedProperty, state⟩
  | stuck {loop : ReadingLoop} {state : ClassState} (misfit : Misfit tokens loop state.rest) :
      Explained tokens ⟨.stuck loop, state⟩
  | unknownProperty {state : ClassState} (leading : LeadingSemicolon tokens) :
      Explained tokens ⟨.fault .unknownProperty, state⟩
  | unnamedMethod {state : ClassState} (place : state.rest <:+ tokens)
      (unfinished : (FunctionDef.read .method state.definition.module
        state.rest).definition.remaining = none) :
      Explained tokens ⟨.fault .unnamedMethod, state⟩
  | unfinishedMethod {state : ClassState} (place : state.rest <:+ tokens)
      (unfinished : (FunctionDef.read .method state.definition.module
        state.rest).definition.remaining = none) :
      Explained tokens ⟨.fault .unfinishedMethod, state⟩

namespace ClassState

/-- The state of a reading of these tokens in which at most the exception is not known in
full. -/
structure Ready (tokens : List Token) (exception : Option Text) (state : ClassState) : Prop where
  place : state.rest <:+ tokens
  recorded : Recorded tokens exception state.definition.properties

variable {tokens : List Token} {exception : Option Text}

namespace Ready

variable {start state : ClassState}

theorem of_moved (ready : Ready tokens exception start) (moved : Moved start state) :
    Ready tokens exception state :=
  ⟨moved.rest.trans ready.place, moved.properties ▸ ready.recorded⟩

end Ready

/-- The halt follows the state, and every reading that comes to the state explains it. -/
structure Stops (state : ClassState) (stop : Halt) : Prop where
  follows : Follows state stop.state
  explained {tokens : List Token} {exception : Option Text} :
    Ready tokens exception state → stop.Explained tokens

section

variable {start state : ClassState} {stop : Halt}

attribute [grind →] Stops.follows

@[grind →] theorem Stops.of_moved (moved : Moved start state) (stops : Stops state stop) :
    Stops start stop :=
  ⟨moved.toFollows.trans stops.follows, fun ready => stops.explained (ready.of_moved moved)⟩

@[grind →] theorem Exhausts.stops (exhausts : Exhausts state stop) : Stops state stop := by
  obtain ⟨cause, after⟩ := stop
  obtain ⟨rfl, moved⟩ := exhausts
  exact ⟨moved.toFollows, fun ready => .exhausted (ready.of_moved moved).recorded⟩

@[grind ←] theorem stops_exhausted (moved : Moved start state) : Stops start ⟨.exhausted, state⟩ :=
  Exhausts.stops ⟨rfl, moved⟩

end

section

/-- A list of items is never stuck: its closing brace ends it, and a comma is passed over. -/
@[spec] theorem readItems_yields (items : List Text) (state : ClassState) :
    Yields (readItems items state) (fun found => Moved state found.2) (Exhausts state) := by
  rw [readItems]
  mvcgen [progressing, readItems_yields] with grind -ring -linarith
termination_by state.rest.length

@[spec] theorem readAttributeValue_yields (name : Text) (attributes : Attributes)
    (state : ClassState) :
    Yields (readAttributeValue name attributes state) (fun found => Moved state found.2)
      (Exhausts state) := by
  mvcgen [readAttributeValue] with grind -ring -linarith

/-- The closing parenthesis of an attribute list lies directly behind the state. -/
structure ClosesList (start state : ClassState) : Prop where
  moved : Moved start state
  closed : ⟨.punctuation, ")"⟩ :: state.rest <:+ start.rest

attribute [grind →] ClosesList.moved ClosesList.closed

@[grind →] theorem ClosesList.of_moved {start middle state : ClassState}
    (moved : Moved start middle) (closes : ClosesList middle state) : ClosesList start state :=
  ⟨moved.trans closes.moved, closes.closed.trans moved.rest⟩

@[grind →] theorem closesList_advance {state : ClassState} {token : Token}
    (atToken : state.rest = token :: state.rest.tail) (closing : token.isPunctuation ")") :
    ClosesList state (state.advance 1) := by
  obtain rfl : token = ⟨.punctuation, ")"⟩ := eq_of_beq closing
  refine ⟨.advance state 1, ?_⟩
  rw [rest_advance, List.drop_one, ← atToken]

theorem stops_attributes {start state : ClassState} {token : Token} (moved : Moved start state)
    (atToken : state.rest = token :: state.rest.tail) (foreign : isAttributePart token = false) :
    Stops start ⟨.stuck .attributes, state⟩ := by
  refine ⟨moved.toFollows, fun ready => ?_⟩
  have place := moved.rest.trans ready.place
  rw [atToken] at place
  exact .stuck (atToken ▸ .inAttributes place foreign)

/-- An attribute list ends with its parenthesis, or it is stuck at a token that is no part of
one. -/
@[spec] theorem readAttributeList_yields (known : List Text) (attributes : Attributes)
    (state : ClassState) :
    Yields (readAttributeList known attributes state)
      (fun found => ClosesList state found.2) (Stops state) := by
  rw [readAttributeList]
  mvcgen [progressing, readAttributeList_yields] with
    grind -ring -linarith [stops_attributes, isAttributePart]
termination_by state.rest.length

@[spec] theorem readAttributes_yields (known : List Text) (state : ClassState) :
    Yields (readAttributes known state)
      (fun found => Moved state found.2 ∧
        (found.2.rest = state.rest.dropWhile Token.isIndent ∨
          ⟨.punctuation, ")"⟩ :: found.2.rest <:+ state.rest))
      (Stops state) := by
  have listYields : Yields
      (do
        let start ← state.skipIndent
        if (← start.peek).isPunctuation "(" then readAttributeList known {} (start.advance 1)
        else return ({}, start))
      (fun found => Moved state found.2 ∧
        (found.2.rest = state.rest.dropWhile Token.isIndent ∨
          ⟨.punctuation, ")"⟩ :: found.2.rest <:+ state.rest))
      (Stops state) := by
    mvcgen with grind -ring -linarith
  unfold readAttributes
  dsimp only
  split
  · rename_i found equality
    exact fun _ => listYields.of_ok equality
  · exact fun _ => stops_exhausted (.noticed state _)
  · rename_i halt _ equality
    exact fun _ => listYields.of_error equality

end

/-- The base classes are never stuck: a word is read, or the blank in its place is passed
over. -/
@[spec] theorem readBases_yields (state : ClassState) :
    Yields (readBases state) (Moved state) (Exhausts state) := by
  rw [readBases]
  mvcgen [progressing, readBases_yields] with grind -ring -linarith
termination_by state.rest.length

@[spec] theorem readDocstring_yields (state : ClassState) :
    Yields (readDocstring state) (Moved state) (Exhausts state) := by
  rw [readDocstring]
  mvcgen [progressing, readDocstring_yields]
  all_goals grind -ring -linarith [addDocstring]
termination_by state.rest.length

@[spec] theorem readHead_yields (state : ClassState) :
    Yields (readHead state) (Moved state) (Stops state) := by
  mvcgen [readHead] with grind -ring -linarith

section

variable (state : ClassState)

@[spec] theorem readMethod_yields (attributes : Attributes) :
    Yields (readMethod attributes state)
      (fun after => Moved state after ∧ after.rest.length < state.rest.length) (Stops state) := by
  cases found :
    (FunctionDef.read .method state.definition.module state.rest).definition.remaining with
  | none =>
    obtain ⟨fault, notices, isFault, halted⟩ := @readMethod_of_none state attributes found
    rw [halted]
    refine fun _ => ⟨(Moved.noticed state notices).toFollows, fun ready => ?_⟩
    rcases isFault with rfl | rfl
    · exact .unnamedMethod ready.place found
    · exact .unfinishedMethod ready.place found
  | some remaining =>
    obtain ⟨method, reset, moved, -, left, isReset⟩ := @readMethod_of_some state attributes _ found
    have fewer := (FunctionDef.remaining_read found).2
    rw [isReset]
    mvcgen with grind -ring -linarith

@[spec] theorem atForeignMethod_yields (token : Token) :
    Yields (state.atForeignMethod token) (fun _ => True) (Exhausts state) := by
  mvcgen [atForeignMethod]
  exact ⟨rfl, .refl state⟩

/-- A list of methods is never stuck, since each round passes over a token. -/
@[spec] theorem readMethodList_yields (attributes : Attributes) (state : ClassState) :
    Yields (readMethodList attributes state) (Moved state) (Stops state) := by
  rw [readMethodList]
  mvcgen [progressing, readMethodList_yields] with grind -ring -linarith
termination_by state.rest.length

@[spec] theorem readMethods_yields :
    Yields (readMethods state) (Moved (state.advance 1)) (Stops state) := by
  mvcgen [readMethods] with grind -ring -linarith

@[spec] theorem passBlock_yields :
    Yields (passBlock state) (Moved (state.advance 1)) (Exhausts state) := by
  mvcgen [passBlock] with grind -ring -linarith

end

end ClassState

end MatlabDocs
