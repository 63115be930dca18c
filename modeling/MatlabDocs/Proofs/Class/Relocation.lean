import MatlabDocs.Proofs.Class.ClassFiles

/-!
# Readings in another place

The reader of a class looks at the tokens that are left and at the members found so far.  It does
not look at the number of tokens in front, at the list of all tokens, or at the base classes and
attributes of the class.  So a reading that starts with the same tokens in another place takes
the same steps.
-/

namespace MatlabDocs

/-- What differs in another place of a reading: the number of tokens in front, all tokens, and the
base classes and attributes of the class. -/
structure Relocation where
  shift : Nat
  tokens : List Token
  bases : List Text → List Text := id
  attributes : Attributes → Attributes := id

namespace Relocation

open ClassState

variable (move : Relocation)

def definition (definition : ClassDef) : ClassDef :=
  { definition with
    tokens := move.tokens
    bases := move.bases definition.bases
    attributes := move.attributes definition.attributes
    index := definition.index.map (· + move.shift) }

def state (state : ClassState) : ClassState :=
  ⟨state.position + move.shift, state.rest, move.definition state.definition, state.notices⟩

/-- The step in the other place, up to what it finds: it halts there if it halts here. -/
def reads {α : Type} : Reads α → Reads α
  | .ok value => .ok value
  | .error stop => .error ⟨stop.cause, move.state stop.state⟩

variable {move} {α β : Type}

@[simp] theorem reads_ok (value : α) : move.reads (.ok value) = .ok value :=
  rfl

@[simp] theorem reads_pure (value : α) : move.reads (pure value) = pure value :=
  rfl

@[simp] theorem reads_halt (state : ClassState) (cause : HaltCause) :
    move.reads (state.halt cause : Reads α) = (move.state state).halt cause :=
  rfl

@[simp] theorem reads_bind (step : Reads α) (next : α → Reads β) :
    move.reads (step >>= next) = move.reads step >>= fun value => move.reads (next value) := by
  cases step <;> rfl

@[simp] theorem reads_map (find : α → β) (step : Reads α) :
    move.reads (find <$> step) = find <$> move.reads step := by
  cases step <;> rfl

@[simp] theorem reads_ite (condition : Prop) {_ : Decidable condition} (first second : Reads α) :
    move.reads (if condition then first else second) =
      if condition then move.reads first else move.reads second :=
  apply_ite _ _ _ _

@[simp] theorem map_ite (find : α → β) (condition : Prop) {_ : Decidable condition}
    (first second : Reads α) :
    find <$> (if condition then first else second) =
      if condition then find <$> first else find <$> second :=
  apply_ite _ _ _ _

@[simp] theorem map_halt (find : α → β) (state : ClassState) (cause : HaltCause) :
    find <$> (state.halt cause : Reads α) = state.halt cause :=
  rfl

section

variable (state : ClassState)

-- Proofs by `rfl` would let `simp` change a condition and keep its decision procedure.

@[simp] theorem rest_state : (move.state state).rest = state.rest := by
  cases state
  rfl

@[simp] theorem name_state : (move.state state).definition.name = state.definition.name := by
  cases state
  rfl

@[simp] theorem module_state : (move.state state).definition.module = state.definition.module := by
  cases state
  rfl

@[simp] theorem property?_state (name : Text) :
    (move.state state).property? name = state.property? name := by
  cases state
  rfl

@[simp] theorem advance_state (count : Nat) :
    (move.state state).advance count = move.state (state.advance count) := by
  simp [Relocation.state, advance, Nat.add_right_comm]

@[simp] theorem notify_state (notice : Notice) :
    (move.state state).notify notice = move.state (state.notify notice) :=
  rfl

@[simp] theorem addDocstring_state (text : Text) :
    (move.state state).addDocstring text = move.state (state.addDocstring text) :=
  rfl

@[simp] theorem ite_state (condition : Prop) {_ : Decidable condition} (other : ClassState) :
    (if condition then move.state state else move.state other) =
      move.state (if condition then state else other) :=
  (apply_ite move.state condition state other).symm

@[simp] theorem peek_state : (move.state state).peek = move.reads state.peek := by
  rw [peek, peek, rest_state]
  cases state.rest <;> rfl

variable (test : Token → Bool)

@[simp] theorem count_state : (move.state state).count test = move.reads (state.count test) := by
  rw [count, count, rest_state]
  cases countWhile? test state.rest <;> rfl

@[simp] theorem skip_state :
    (move.state state).skip test = move.state <$> move.reads (state.skip test) := by
  simp [skip]

@[simp] theorem skipIndent_state :
    (move.state state).skipIndent = move.state <$> move.reads state.skipIndent :=
  skip_state state Token.isIndent

@[simp] theorem skipSpacing_state :
    (move.state state).skipSpacing = move.state <$> move.reads state.skipSpacing :=
  skip_state state isSpacing

@[simp] theorem pass_state :
    (move.state state).pass test = move.state <$> move.reads (state.pass test) := by
  simp [ClassState.pass]

@[simp] theorem skipCommentary_state :
    (move.state state).skipCommentary = move.state <$> move.reads state.skipCommentary := by
  simp [skipCommentary]

end

/-! ## Attributes -/

section

theorem rest_induction {motive : ClassState → Prop}
    (step : ∀ state, (∀ after, after.rest.length < state.rest.length → motive after) →
      motive state) (state : ClassState) : motive state :=
  step state fun after _ => rest_induction step after
termination_by state.rest.length

theorem progressing_eq {loop : ReadingLoop} {first state : ClassState} {step : Reads α} :
    progressing loop first state (fun _ => step) =
      if state.rest.length < first.rest.length then step else state.halt (.stuck loop) :=
  dite_eq_ite

theorem ite_of_lt {first second : ClassState → Reads α} {state : ClassState}
    (shorter : ∀ after, after.rest.length < state.rest.length → first after = second after)
    (after : ClassState) (stuck : Reads α) {_ : Decidable (after.rest.length < state.rest.length)} :
    (if after.rest.length < state.rest.length then first after else stuck) =
      if after.rest.length < state.rest.length then second after else stuck := by
  split
  · exact shorter after ‹_›
  · rfl

private theorem readItems_state (items : List Text) (state : ClassState) :
    readItems items (move.state state) =
      Prod.map id move.state <$> move.reads (readItems items state) := by
  induction state using rest_induction generalizing items with
  | step state shorter =>
    rw [readItems, readItems]
    simp [↓progressing_eq, fun items => ite_of_lt fun after fewer => shorter after fewer items]

theorem readAttributeValue_state (name : Text) (attributes : Attributes) (state : ClassState) :
    readAttributeValue name attributes (move.state state) =
      Prod.map id move.state <$> move.reads (readAttributeValue name attributes state) := by
  simp [readAttributeValue, readItems_state]

variable (known : List Text) (state : ClassState)

theorem readAttributeList_state (attributes : Attributes) (state : ClassState) :
    readAttributeList known attributes (move.state state) =
      Prod.map id move.state <$> move.reads (readAttributeList known attributes state) := by
  induction state using rest_induction generalizing attributes with
  | step state shorter =>
    rw [readAttributeList, readAttributeList]
    simp [↓progressing_eq, readAttributeValue_state,
      fun attributes => ite_of_lt fun after fewer => shorter after fewer attributes]

/-- When the tokens run out, the step stops in front. -/
def orInFront : Reads α → Reads α
  | .ok found => .ok found
  | .error ⟨.exhausted, stop⟩ => .error ⟨.exhausted, { state with notices := stop.notices }⟩
  | .error halt => .error halt

private theorem orInFront_state (find : α → β) (state : ClassState) (step : Reads α) :
    orInFront (move.state state) (find <$> move.reads step) =
      find <$> move.reads (orInFront state step) := by
  rcases step with ⟨⟨_ | _ | _ | _⟩, stop⟩ | found <;> rfl

theorem readAttributes_state :
    readAttributes known (move.state state) =
      Prod.map id move.state <$> move.reads (readAttributes known state) := by
  have reading : ∀ state, readAttributes known state = orInFront state (do
      let start ← state.skipIndent
      if (← start.peek).isPunctuation "(" then readAttributeList known {} (start.advance 1)
      else return ({}, start)) := by
    intro state
    unfold readAttributes
    generalize (do
      let start ← state.skipIndent
      if (← start.peek).isPunctuation "(" then readAttributeList known {} (start.advance 1)
      else return ({}, start) : Reads (Attributes × ClassState)) = step
    rcases step with ⟨⟨_ | _ | _ | _⟩, stop⟩ | found <;> rfl
  rw [reading, reading, ← orInFront_state]
  simp [readAttributeList_state]

end

/-! ## Heads -/

theorem readDocstring_state (state : ClassState) :
    readDocstring (move.state state) = move.state <$> move.reads (readDocstring state) := by
  induction state using rest_induction with
  | step state shorter =>
    rw [readDocstring, readDocstring]
    simp [↓progressing_eq, ite_of_lt shorter]

theorem readBases_state
    (added : ∀ bases base, move.bases (bases ++ [base]) = move.bases bases ++ [base])
    (state : ClassState) :
    readBases (move.state state) = move.state <$> move.reads (readBases state) := by
  have extended : ∀ (state : ClassState) base,
      (move.state state).modify (fun definition =>
          { definition with bases := definition.bases ++ [base] }) =
        move.state (state.modify fun definition =>
          { definition with bases := definition.bases ++ [base] }) := by
    intro state base
    simp [ClassState.modify, Relocation.state, Relocation.definition, added]
  induction state using rest_induction with
  | step state shorter =>
    rw [readBases, readBases]
    simp [↓progressing_eq, extended, ite_of_lt shorter]

def readNamed (attributes : Attributes) (attributed : ClassState) : Reads ClassState := do
  let start ← (attributed.modify fun definition => { definition with attributes }).skipIndent
  let token ← start.peek
  let definition := start.definition
  let named := if token == ⟨.name, definition.name⟩ then start
    else start.notify (.unexpectedClassName token.value definition.name definition.module)
  let after ← (named.advance 1).skipIndent
  let next ← after.peek
  let signed ← if next.isOperator "<" then readBases (after.advance 1)
    else if next.isNewline then pure (after.advance 1)
    else pure after
  readDocstring (← signed.skipIndent)

theorem readHead_eq (state : ClassState) :
    readHead state = (readAttributes ClassDef.classAttributes state >>= fun found =>
      readNamed found.1 found.2) :=
  rfl

theorem readNamed_state (keepsBases : move.bases = id) (keepsAttributes : move.attributes = id)
    (attributes : Attributes) (state : ClassState) :
    readNamed attributes (move.state state) =
      move.state <$> move.reads (readNamed attributes state) := by
  have attributed : (move.state state).modify (fun definition => { definition with attributes }) =
      move.state (state.modify fun definition => { definition with attributes }) := by
    simp [ClassState.modify, Relocation.state, Relocation.definition, keepsAttributes, id]
  have bases := @readBases_state move (by simp [keepsBases])
  simp [readNamed, attributed, bases, readDocstring_state]

/-! ## Properties -/

section

variable (attributes : Attributes) (name : Text) (after : ClassState) (state : ClassState)

@[simp] theorem setProperty_state (name : Text) (property : PropertyDef) :
    (move.state state).setProperty name property = move.state (state.setProperty name property) :=
  rfl

@[simp] theorem updateProperty_state (name : Text) (change : PropertyDef → PropertyDef) :
    (move.state state).updateProperty name change =
      move.state <$> move.reads (state.updateProperty name change) := by
  rw [updateProperty, updateProperty, property?_state]
  cases state.property? name <;> rfl

theorem readDefault_state (depth : Int) (lineStart : Bool) (value : Text) (state : ClassState) :
    readDefault depth lineStart value (move.state state) =
      Prod.map id move.state <$> move.reads (readDefault depth lineStart value state) := by
  induction state using rest_induction generalizing depth lineStart value with
  | step state shorter =>
    rw [readDefault, readDefault]
    simp [↓progressing_eq, fun depth lineStart value =>
      ite_of_lt fun after fewer => shorter after fewer depth lineStart value]

private theorem readDefaultValue_state :
    readDefaultValue (move.state state) =
      Prod.map id move.state <$> move.reads (readDefaultValue state) := by
  simp [readDefaultValue, readDefault_state]

theorem readPropertyEnd_state :
    readPropertyEnd name (move.state state) =
      move.state <$> move.reads (readPropertyEnd name state) := by
  simp [readPropertyEnd, readDefaultValue_state]
  refine bind_congr fun start => bind_congr fun found => bind_congr fun updated =>
    bind_congr fun token => ?_
  cases updated.property? name <;> simp

/-- A step of a property block in the other place. -/
def step (move : Relocation) : PropertyStep → PropertyStep
  | .next name after => .next name (move.state after)
  | .ended after => .ended (move.state after)

@[simp] theorem step_next : move.step (.next name after) = .next name (move.state after) :=
  rfl

@[simp] theorem step_ended : move.step (.ended after) = .ended (move.state after) :=
  rfl

theorem readSemicolon_state :
    readSemicolon name (move.state state) =
      move.step <$> move.reads (readSemicolon name state) := by
  simp [readSemicolon, readPropertyEnd_state]

theorem readSpecified_state :
    readSpecified name (move.state state) =
      move.step <$> move.reads (readSpecified name state) := by
  simp [readSpecified, readPropertyEnd_state]

private theorem readCommentEnd_state (docstring : Text) (state : ClassState) :
    readCommentEnd docstring (move.state state) =
      (fun
        | .ok (text, after) => .ok (text, move.state after)
        | .error after => .error (move.state after)) <$>
      move.reads (readCommentEnd docstring state) := by
  simp [readCommentEnd]
  refine bind_congr fun token => ite_congr rfl (fun _ => ?_) fun _ => rfl
  cases (state.advance 1).skipIndent <;> rfl

private theorem readPropertyComment_state (name docstring : Text) (state : ClassState) :
    readPropertyComment attributes name docstring (move.state state) =
      Prod.map id move.state <$>
        move.reads (readPropertyComment attributes name docstring state) := by
  induction state using rest_induction generalizing docstring with
  | step state shorter =>
    rw [readPropertyComment, readPropertyComment]
    simp [↓progressing_eq, readCommentEnd_state]
    refine bind_congr fun comment => ite_congr rfl (fun _ => rfl) fun _ =>
      bind_congr fun lineEnd => bind_congr fun ended => ?_
    rcases ended with stop | ⟨text, start⟩
    · rfl
    · simp [fun docstring => ite_of_lt fun after fewer => shorter after fewer docstring]
      refine bind_congr fun token => ite_congr rfl (fun _ => rfl) fun _ =>
        ite_congr rfl (fun _ => ?_) fun _ => rfl
      cases start.skipSpacing <;> rfl

private theorem readDeclaration_state :
    readDeclaration attributes name (move.state state) =
      move.step <$> move.reads (readDeclaration attributes name state) := by
  simp [readDeclaration, readPropertyComment_state, readPropertyEnd_state, readSemicolon_state]

theorem readDeclarations_state :
    readDeclarations attributes name (move.state state) =
      move.state <$> move.reads (readDeclarations attributes name state) := by
  induction state using rest_induction generalizing name with
  | step state shorter =>
    rw [readDeclarations, readDeclarations]
    simp [↓progressing_eq, readDeclaration_state]
    refine bind_congr fun token => ite_congr rfl (fun _ => rfl) fun _ => bind_congr fun step => ?_
    cases step <;> simp [fun name => ite_of_lt fun after fewer => shorter after fewer name]

theorem readProperties_state :
    readProperties (move.state state) = move.state <$> move.reads (readProperties state) := by
  simp [readProperties, readAttributes_state, readDeclarations_state]

end

/-! ## Methods -/

section

variable (attributes : Attributes) (state : ClassState)

theorem readMethod_state :
    readMethod attributes (move.state state) =
      move.state <$> move.reads (readMethod attributes state) := by
  have skipped : ∀ {after moved : ClassState} count, moved = move.state after →
      (moved.advance count).skipSpacing =
        move.state <$> move.reads (after.advance count).skipSpacing := by
    rintro after _ count rfl
    simp
  unfold readMethod
  rw [module_state, rest_state]
  generalize FunctionDef.read .method state.definition.module state.rest = reading
  dsimp only
  rcases reading.definition.name with _ | name
  · rfl
  rcases reading.definition.remaining with _ | remaining
  · rfl
  by_cases access : isAccessMethod name
  · simp only [if_pos access]
    exact skipped _ rfl
  · simp only [if_neg access]
    exact skipped _ rfl

private theorem atForeignMethod_state (token : Token) (state : ClassState) :
    (move.state state).atForeignMethod token = move.reads (state.atForeignMethod token) := by
  rw [atForeignMethod, atForeignMethod, advance_state, rest_state]
  cases (state.advance 1).rest <;> simp

theorem readMethodList_state :
    readMethodList attributes (move.state state) =
      move.state <$> move.reads (readMethodList attributes state) := by
  induction state using rest_induction with
  | step state shorter =>
    rw [readMethodList, readMethodList]
    simp [↓progressing_eq, readMethod_state, atForeignMethod_state, ite_of_lt shorter]
    refine bind_congr fun first => ite_congr rfl (fun _ => rfl) fun _ => bind_congr fun here =>
      bind_congr fun token => bind_congr fun foreign => ite_congr rfl (fun _ => ?_) fun _ => rfl
    cases countWhile? isSpacing here.rest.tail <;> simp

theorem readMethods_state :
    readMethods (move.state state) = move.state <$> move.reads (readMethods state) := by
  simp [readMethods, readAttributes_state, readMethodList_state]

theorem passBlock_state :
    passBlock (move.state state) = move.state <$> move.reads (passBlock state) := by
  simp [passBlock]

end

/-! ## Blocks -/

theorem readSort_state (sort : BlockSort) (state : ClassState) :
    sort.read (move.state state) = move.state <$> move.reads (sort.read state) := by
  cases sort with
  | properties => exact readProperties_state state
  | methods => exact readMethods_state state
  | events => exact passBlock_state state
  | enumeration => exact passBlock_state state

theorem readBlock_state {opening : Token} {read : ClassState → Reads ClassState}
    (same : ∀ state, read (move.state state) = move.state <$> move.reads (read state))
    (state : ClassState) :
    readBlock opening read (move.state state) =
      move.state <$> move.reads (readBlock opening read state) := by
  simp [readBlock, same]

theorem readSorts_state (sorts : List BlockSort) (state : ClassState) :
    readSorts sorts (move.state state) = move.state <$> move.reads (readSorts sorts state) := by
  induction sorts generalizing state with
  | nil => rfl
  | cons sort sorts ih => simp [readSorts, readBlock_state (readSort_state sort), ih]

theorem readBlocks_state (state : ClassState) :
    readBlocks (move.state state) = move.state <$> move.reads (readBlocks state) := by
  induction state using rest_induction with
  | step state shorter =>
    rw [readBlocks, readBlocks]
    simp [↓progressing_eq, readBlock_state readProperties_state, readBlock_state readMethods_state,
      readBlock_state passBlock_state, ite_of_lt shorter]

/-- Readings that go the same way find the same class, up to what differs in their places. -/
theorem read_of_reading_eq {name module : Text} {tokens others : List Token}
    (same : (do readBlocks (← readHead
        { position := 1, rest := others.drop 1,
          definition := { name, module, tokens := others } })) =
      move.state <$> move.reads (do readBlocks (← readHead
        { position := 1, rest := tokens.drop 1, definition := { name, module, tokens } }))) :
    ClassDef.read name module others = (ClassDef.read name module tokens).map move.definition := by
  unfold ClassDef.read
  dsimp only
  rw [same]
  generalize (do readBlocks (← readHead
    { position := 1, rest := tokens.drop 1, definition := { name, module, tokens } })) = reading
  rcases reading with ⟨⟨_ | _ | _ | _⟩, stop⟩ | state <;> rfl

theorem read_self (name module : Text) (tokens : List Token) :
    ClassDef.read name module tokens =
      (ClassDef.read name module tokens).map (Relocation.definition { shift := 0, tokens }) := by
  have same : ∀ start,
      (do readBlocks (← readHead (Relocation.state { shift := 0, tokens } start))) =
      Relocation.state { shift := 0, tokens } <$>
        Relocation.reads { shift := 0, tokens } (do readBlocks (← readHead start)) := by
    simp [readHead_eq, readAttributes_state, readNamed_state, readBlocks_state]
  exact read_of_reading_eq (same ⟨1, tokens.drop 1, { name, module, tokens }, []⟩)

end Relocation

end MatlabDocs
