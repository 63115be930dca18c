import MatlabDocs.Definition.Class.Methods
import MatlabDocs.Proofs.Class.Outcome
import MatlabDocs.Proofs.Function.Remaining

/-!
# Progress over methods

Whatever the tokens are, a function that leaves tokens takes at least one and leaves at least one.
So the reader of a class goes on behind every method that it has cut off, and stays within the
tokens.
-/

namespace MatlabDocs

open List

theorem FunctionDef.remaining_read {naming : Naming} {module : Text} {tokens remaining : List Token}
    (found : (read naming module tokens).definition.remaining = some remaining) :
    remaining ≠ [] ∧ remaining.length < tokens.length := by
  cases tokens with
  | nil => cases found
  | cons first rest =>
    obtain ⟨notEmpty, bounded⟩ := (read_leaves naming module first rest).left remaining found
    exact ⟨notEmpty, Nat.lt_succ_of_le bounded⟩

namespace ClassState

/-- The method holds the tokens between the two states. -/
structure CutsOff (start : ClassState) (method : MethodDef) (state : ClassState) : Prop where
  split : method.signature.tokens ++ state.rest = start.rest
  taken : method.signature.tokens ≠ []
  left : state.rest ≠ []
  position : state.position = start.position + method.signature.tokens.length
  entered : isAccessMethod method.name = false →
    state.definition.methods.get? method.name = some method

variable {start state after : ClassState} {attributes : Attributes}

theorem CutsOff.advances {method : MethodDef} (cuts : start.CutsOff method state) :
    start.position < state.position ∧ state.position < start.position + start.rest.length := by
  have taken := length_pos_iff.mpr cuts.taken
  have left := length_pos_iff.mpr cuts.left
  have lengths := congrArg List.length cuts.split
  rw [length_append] at lengths
  rw [cuts.position]
  omega

theorem skip_stays {test : Token → Bool} (skipped : state.skip test = .ok after) :
    state.position ≤ after.position ∧
      after.position + after.rest.length = state.position + state.rest.length ∧
      after.rest ≠ [] := by
  rw [skip, count, countWhile?] at skipped
  by_cases stops : (state.rest.takeWhile test).length < state.rest.length
  · simp only [if_pos stops] at skipped
    cases skipped
    simp only [advance, length_drop, ne_eq, drop_eq_nil_iff]
    omega
  · simp only [if_neg stops] at skipped
    cases skipped

/-- Without tokens that remain, reading a method halts where it began. -/
theorem readMethod_of_none
    (nothing : (FunctionDef.read .method state.definition.module state.rest).definition.remaining =
      none) :
    ∃ fault notices, (fault = .unnamedMethod ∨ fault = .unfinishedMethod) ∧
      readMethod attributes state = .error ⟨.fault fault, { state with notices }⟩ := by
  unfold readMethod
  dsimp only
  rw [nothing]
  split
  · exact ⟨_, _, .inl rfl, rfl⟩
  · exact ⟨_, _, .inr rfl, rfl⟩
  · rename_i impossible
    cases impossible

/-- A method that leaves tokens is cut off, and white space behind it is skipped. -/
theorem readMethod_of_some {remaining : List Token}
    (found : (FunctionDef.read .method state.definition.module state.rest).definition.remaining =
      some remaining) :
    ∃ method reset, Moved state reset ∧ state.CutsOff method reset ∧
      reset.rest.length = remaining.length ∧
      readMethod attributes state = reset.skipSpacing := by
  obtain ⟨notEmpty, fewer⟩ := FunctionDef.remaining_read found
  have left := length_pos_iff.mpr notEmpty
  obtain ⟨first, rest, shape⟩ : ∃ first rest, state.rest = first :: rest :=
    exists_cons_of_length_pos (by omega)
  have leaves := FunctionDef.read_leaves .method state.definition.module first rest
  rw [← shape] at leaves
  unfold readMethod
  extract_lets reading noticed
  split
  · rename_i unnamed
    cases found.symm.trans (leaves.named unnamed)
  · rename_i nothing
    cases found.symm.trans nothing
  rename_i name other _ isOther
  obtain rfl := Option.some.inj (found.symm.trans isOther)
  extract_lets length signature method kept
  have keptRest : kept.rest = state.rest ∧ kept.position = state.position ∧ Moved state kept := by
    simp only [kept]
    split <;> exact ⟨rfl, rfl, ⟨suffix_rfl, rfl⟩, rfl⟩
  have restLeft : (kept.advance length).rest.length = remaining.length := by
    simp only [advance, keptRest.1, length_drop, length]
    omega
  have takenLength : (state.rest.take length).length = length := by
    rw [length_take]
    omega
  refine ⟨method, kept.advance length, keptRest.2.2.trans (.advance _ _),
    ⟨?split, ?taken, ?left, ?position, ?entered⟩, restLeft, rfl⟩
  case split =>
    show state.rest.take length ++ kept.rest.drop length = state.rest
    rw [keptRest.1, take_append_drop]
  case taken =>
    refine ne_nil_of_length_pos (Nat.lt_of_lt_of_eq ?_ takenLength.symm)
    omega
  case left => exact ne_nil_of_length_pos (by omega)
  case position =>
    show kept.position + length = state.position + (state.rest.take length).length
    rw [keptRest.2.1, takenLength]
  case entered =>
    intro documented
    have stored : kept = noticed.modify fun definition =>
        { definition with methods := definition.methods.insert name method } :=
      if_neg (Bool.not_eq_true _ ▸ documented)
    rw [stored]
    exact (Table.get?_insert _ _ _ _).trans (if_pos rfl)

/-- A function may be read from any tokens; if tokens remain, there is at least one of them, and
fewer than there were.  So a method whose tokens are reset holds at least one, the reader of the
class goes on by as many tokens as it holds, and it stays within the tokens. -/
theorem functions_make_progress :
    (∀ (naming : FunctionDef.Naming) (module : Text) (tokens remaining : List Token),
      (FunctionDef.read naming module tokens).definition.remaining = some remaining →
        0 < remaining.length ∧ remaining.length < tokens.length) ∧
    ∀ (attributes : Attributes) (state : ClassState),
      match (FunctionDef.read .method state.definition.module state.rest).definition.remaining with
      | none => ∃ fault stop, readMethod attributes state = .error ⟨.fault fault, stop⟩ ∧
          stop.position = state.position
      | some remaining => ∃ method reset, state.CutsOff method reset ∧
          method.signature.tokens.length = state.rest.length - remaining.length ∧
          state.position < reset.position ∧
          reset.position < state.position + state.rest.length ∧
          readMethod attributes state = reset.skipSpacing ∧
          ∀ after, readMethod attributes state = .ok after →
            state.position < after.position ∧
            after.position < state.position + state.rest.length := by
  refine ⟨fun naming module tokens remaining found => ?_, fun attributes state => ?_⟩
  · obtain ⟨notEmpty, fewer⟩ := FunctionDef.remaining_read found
    exact ⟨length_pos_iff.mpr notEmpty, fewer⟩
  split
  · rename_i nothing
    obtain ⟨fault, notices, _, halted⟩ := @readMethod_of_none state attributes nothing
    exact ⟨fault, _, halted, rfl⟩
  · rename_i remaining found
    obtain ⟨method, reset, _, cuts, left, isReset⟩ := @readMethod_of_some state attributes _ found
    have lengths := congrArg List.length cuts.split
    rw [length_append] at lengths
    refine ⟨method, reset, cuts, by omega, cuts.advances.1, cuts.advances.2, isReset, ?_⟩
    intro after isAfter
    obtain ⟨further, whole, more⟩ := skip_stays (isReset.symm.trans isAfter)
    have further := Nat.lt_of_lt_of_le cuts.advances.1 further
    have more := length_pos_iff.mpr more
    have position := cuts.position
    exact ⟨further, by omega⟩

/-- A method that ends within its comment, so that the comment is what remains. -/
def openMethod : List Token :=
  [⟨.keyword, "function"⟩, ⟨.whitespace, " "⟩, ⟨.functionName, "f"⟩, ⟨.punctuation, "("⟩,
   ⟨.punctuation, ")"⟩, ⟨.comment, "% a"⟩, ⟨.name, "x"⟩]

theorem functions_make_progress_openMethod :
    (FunctionDef.read .method "p" openMethod).definition.remaining = some [⟨.comment, "% a"⟩] ∧
      0 < [(⟨.comment, "% a"⟩ : Token)].length ∧
      [(⟨.comment, "% a"⟩ : Token)].length < openMethod.length :=
  have found : (FunctionDef.read .method "p" openMethod).definition.remaining =
      some [⟨.comment, "% a"⟩] := by decide +kernel
  ⟨found, functions_make_progress.1 .method "p" openMethod _ found⟩

end ClassState

end MatlabDocs
