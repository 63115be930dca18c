import MatlabDocs.Proofs.Class.Reader
import Mathlib

/-!
# Outcomes of the steps of the class reader

A step gives a result or halts.  `Yields` says what holds in either case, so that a run of
steps is described by describing its steps in turn.  The steps below pass over tokens: what is
left is an end of what was there before, and the properties of the class are the same.
-/

set_option mvcgen.warning false

namespace MatlabDocs

open Std.Do

/-- A result of the step satisfies the first predicate, a halt the second. -/
abbrev Yields {α : Type} (step : Reads α) (result : α → Prop) (halt : Halt → Prop) : Prop :=
  ⦃⌜True⌝⦄ step ⦃post⟨fun value => ⌜result value⌝, fun stop => ⌜halt stop⌝⟩⦄

namespace Yields

variable {α : Type} {step : Reads α} {result : α → Prop} {halt : Halt → Prop}
variable (yields : Yields step result halt)
include yields

theorem of_ok {value : α} (equals : step = .ok value) : result value := by
  subst equals
  exact yields trivial

theorem of_error {stop : Halt} (equals : step = .error stop) : halt stop := by
  subst equals
  exact yields trivial

end Yields

/-- A step does for every instance of a condition what it does for each. -/
theorem Yields.of_forall {α ι : Type} {step : Reads α} {condition : ι → Prop}
    {result : ι → α → Prop} {halt : ι → Halt → Prop}
    (yields : ∀ index, condition index → Yields step (result index) (halt index)) :
    Yields step (fun value => ∀ index, condition index → result index value)
      (fun stop => ∀ index, condition index → halt index stop) := by
  cases step with
  | ok value => exact fun _ index given => (yields index given).of_ok rfl
  | error stop => exact fun _ index given => (yields index given).of_error rfl

theorem Yields.and {α : Type} {step : Reads α} {first second : α → Prop} {halt other : Halt → Prop}
    (yields : Yields step first halt) (also : Yields step second other) :
    Yields step (fun value => first value ∧ second value) (fun stop => halt stop ∧ other stop) := by
  cases step with
  | ok value => exact fun _ => ⟨yields.of_ok rfl, also.of_ok rfl⟩
  | error stop => exact fun _ => ⟨yields.of_error rfl, also.of_error rfl⟩

namespace Reads

variable {α : Type} {post : PostCond α (.except Halt .pure)}

@[spec] theorem ok_spec {value : α} : ⦃post.1 value⦄ (Except.ok value : Reads α) ⦃post⦄ :=
  id

@[spec] theorem halt_spec {state : ClassState} {cause : HaltCause} :
    ⦃post.2.1 ⟨cause, state⟩⦄ (state.halt cause : Reads α) ⦃post⦄ :=
  id

end Reads

namespace ClassState

/-- The reading has gone on: an end of the tokens is left, and the module is the same. -/
structure Follows (start state : ClassState) : Prop where
  rest : state.rest <:+ start.rest
  module_eq : state.definition.module = start.definition.module

/-- Tokens have been passed over, and no property was entered. -/
structure Moved (start state : ClassState) : Prop extends Follows start state where
  properties : state.definition.properties = start.definition.properties

/-- The tokens have run out, and no property was entered. -/
@[grind =] def Exhausts (start : ClassState) (stop : Halt) : Prop :=
  stop.cause = .exhausted ∧ Moved start stop.state

variable {start middle state : ClassState}

@[grind =] theorem rest_advance (count : Nat) :
    (state.advance count).rest = state.rest.drop count :=
  rfl

@[grind =] theorem rest_modify (change : ClassDef → ClassDef) :
    (state.modify change).rest = state.rest :=
  rfl

@[grind .] theorem Follows.refl (state : ClassState) : Follows state state :=
  ⟨List.suffix_rfl, rfl⟩

@[grind →] theorem Follows.trans (first : Follows start middle) (second : Follows middle state) :
    Follows start state :=
  ⟨second.rest.trans first.rest, second.module_eq.trans first.module_eq⟩

namespace Moved

attribute [grind →] toFollows

@[grind .] theorem refl (state : ClassState) : Moved state state :=
  ⟨.refl state, rfl⟩

@[grind →] theorem trans (first : Moved start middle) (second : Moved middle state) :
    Moved start state :=
  ⟨first.toFollows.trans second.toFollows, second.properties.trans first.properties⟩

theorem advance (state : ClassState) (count : Nat) : Moved state (state.advance count) :=
  ⟨⟨List.drop_suffix _ _, rfl⟩, rfl⟩

theorem notify (state : ClassState) (notice : Notice) : Moved state (state.notify notice) :=
  ⟨⟨List.suffix_rfl, rfl⟩, rfl⟩

theorem noticed (state : ClassState) (notices : List Notice) : Moved state { state with notices } :=
  ⟨⟨List.suffix_rfl, rfl⟩, rfl⟩

theorem modify {change : ClassDef → ClassDef}
    (inside : (change state.definition).module = state.definition.module)
    (keeps : (change state.definition).properties = state.definition.properties) :
    Moved state (state.modify change) :=
  ⟨⟨List.suffix_rfl, inside⟩, keeps⟩

grind_pattern advance => state.advance count
grind_pattern notify => state.notify notice
grind_pattern noticed => ({ state with notices } : ClassState)
grind_pattern modify => state.modify change

section

variable (moved : Moved start state)
include moved

@[grind →] theorem length_le : state.rest.length ≤ start.rest.length :=
  moved.rest.length_le

/-- As long as no token is passed over, the next one stays the same. -/
@[grind →] theorem token_eq {first token : Token} (atFirst : start.rest = first :: start.rest.tail)
    (atToken : state.rest = token :: state.rest.tail)
    (notShorter : start.rest.length ≤ state.rest.length) : first = token := by
  have same := moved.rest.eq_of_length (Nat.le_antisymm moved.rest.length_le notShorter)
  rw [atToken, atFirst] at same
  exact (List.cons.inj same).1.symm

theorem property?_eq (name : Text) : state.property? name = start.property? name := by
  unfold property?
  rw [moved.properties]

end

grind_pattern property?_eq => Moved start state, state.property? name

end Moved

@[grind →] theorem Exhausts.of_moved {stop : Halt} (moved : Moved start state)
    (exhausts : Exhausts state stop) : Exhausts start stop :=
  ⟨exhausts.1, moved.trans exhausts.2⟩

@[grind →] theorem test_of_dropWhile {test : Token → Bool} {tokens rest : List Token}
    {stop : Token} (stops : tokens.dropWhile test = stop :: rest) : test stop = false := by
  have fails := List.head?_dropWhile_not test tokens
  rw [stops] at fails
  exact fails

section

variable (state : ClassState) (test : Token → Bool)

@[spec] theorem peek_yields :
    Yields state.peek (fun token => state.rest = token :: state.rest.tail) (Exhausts state) := by
  mvcgen [peek] with grind -ring -linarith

@[spec] theorem count_yields :
    Yields (state.count test)
      (fun count => (state.advance count).rest = state.rest.dropWhile test)
      (Exhausts state) := by
  mvcgen [count] with grind -ring -linarith [countWhile?, drop_length_takeWhile]

@[spec] theorem skip_yields :
    Yields (state.skip test)
      (fun after => Moved state after ∧ after.rest = state.rest.dropWhile test)
      (Exhausts state) := by
  mvcgen [skip] with grind -ring -linarith

@[spec] theorem skipIndent_yields :
    Yields state.skipIndent
      (fun after => Moved state after ∧ after.rest = state.rest.dropWhile Token.isIndent)
      (Exhausts state) :=
  skip_yields state Token.isIndent

@[spec] theorem skipSpacing_yields :
    Yields state.skipSpacing
      (fun after => Moved state after ∧ after.rest = state.rest.dropWhile isSpacing)
      (Exhausts state) :=
  skip_yields state isSpacing

@[spec] theorem pass_yields :
    Yields (state.pass test)
      (fun after => Moved state after ∧ after.rest = state.rest.dropWhile test)
      (Exhausts state) := by
  mvcgen [pass] with grind -ring -linarith [drop_length_takeWhile]

@[spec] theorem skipCommentary_yields :
    Yields state.skipCommentary
      (fun after => Moved state after ∧ after.rest = state.rest.dropWhile isCommentary)
      (Exhausts state) := by
  mvcgen [skipCommentary]
  · exact ⟨.advance _ _, drop_length_takeWhile isCommentary state.rest⟩
  · exact ⟨rfl, .advance _ _⟩

end

end ClassState

end MatlabDocs
