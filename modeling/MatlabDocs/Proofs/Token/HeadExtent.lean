import MatlabDocs.Token.Head

/-!
# The extent of function heads

The lengths that are found for the parts of a function head never reach beyond the text.
-/

namespace MatlabDocs

theorem exists_of_greatest?_eq_some {α : Type} {result? : Nat → Option α} {bound : Nat}
    {result : α} (found : greatest? result? bound = some result) :
    ∃ number, number ≤ bound ∧ result? number = some result := by
  induction bound with
  | zero => exact ⟨0, Nat.le_refl 0, found⟩
  | succ bound ih =>
    rw [greatest?, Option.or_eq_some_iff] at found
    rcases found with atBound | ⟨_, below⟩
    · exact ⟨bound + 1, Nat.le_refl _, atBound⟩
    · obtain ⟨number, bounded, here⟩ := ih below
      exact ⟨number, Nat.le_succ_of_le bounded, here⟩

theorem length_takeWhile_le (test : Char → Bool) (text : Text) :
    (text.takeWhile test).length ≤ text.length :=
  (List.takeWhile_prefix test).length_le

theorem blankLength_le (text : Text) : blankLength text ≤ text.length :=
  length_takeWhile_le isBlank text

def CallLengths.total (call : CallLengths) : Nat :=
  call.name + 1 + call.arguments + 1

variable {text : Text} {call : CallLengths}

theorem total_le_of_callLengths? (found : callLengths? text = some call) :
    call.total ≤ text.length := by
  obtain ⟨name, _, atName⟩ := exists_of_greatest?_eq_some found
  split at atName
  · obtain ⟨arguments, _, atArguments⟩ := exists_of_greatest?_eq_some atName
    split at atArguments
    · rename_i closing
      obtain ⟨inside, _⟩ := List.getElem?_eq_some_iff.mp closing
      have shorter : (text.take (lineLength text)).length ≤ text.length :=
        (List.take_prefix _ _).length_le
      obtain rfl := Option.some.inj atArguments
      show name + 1 + arguments + 1 ≤ text.length
      omega
    · cases atArguments
  · cases atName

theorem total_le_of_spacedCallLengths? {blanks : Nat}
    (found : spacedCallLengths? text = some (blanks, call)) :
    blanks + call.total ≤ text.length := by
  obtain ⟨number, bounded, here⟩ := exists_of_greatest?_eq_some found
  obtain ⟨inner, isCall, same⟩ := Option.map_eq_some_iff.mp here
  obtain ⟨rfl, rfl⟩ := Prod.mk.inj same
  have extent := total_le_of_callLengths? isCall
  have blankExtent := blankLength_le text
  rw [List.length_drop] at extent
  omega

def OutputLengths.total (outputs : OutputLengths) : Nat :=
  outputs.outputs + outputs.beforeEquals + 1 + outputs.afterEquals

theorem total_le_of_assignedCallLengths? {outputs : OutputLengths}
    (found : assignedCallLengths? text = some (outputs, call)) :
    outputs.total + call.total ≤ text.length := by
  obtain ⟨number, bounded, here⟩ := exists_of_greatest?_eq_some found
  dsimp only at here
  split at here
  · cases here
  · split at here
    · rename_i rest shape
      obtain ⟨⟨after, inner⟩, isCall, same⟩ := Option.map_eq_some_iff.mp here
      obtain ⟨rfl, rfl⟩ := Prod.mk.inj same
      have extent := total_le_of_spacedCallLengths? isCall
      have lengths := congrArg List.length shape
      rw [List.length_drop, List.length_drop, List.length_cons] at lengths
      show number + blankLength (text.drop number) + 1 + after + inner.total ≤ text.length
      omega
    · cases here

def HeadLengths.outputTotal (head : HeadLengths) : Nat :=
  (head.outputs.map OutputLengths.total).getD 0

theorem total_le_of_headLengths? {head : HeadLengths} (found : headLengths? text = some head) :
    head.blanks + head.outputTotal + head.call.total ≤ text.length := by
  obtain ⟨blanks, bounded, here⟩ := exists_of_greatest?_eq_some found
  have blankExtent := blankLength_le text
  rcases Option.or_eq_some_iff.mp here with assigned | ⟨_, bare⟩
  · obtain ⟨⟨outputs, call⟩, isAssigned, rfl⟩ := Option.map_eq_some_iff.mp assigned
    have extent := total_le_of_assignedCallLengths? isAssigned
    rw [List.length_drop] at extent
    show blanks + outputs.total + call.total ≤ text.length
    omega
  · obtain ⟨call, isCall, rfl⟩ := Option.map_eq_some_iff.mp bare
    have extent := total_le_of_callLengths? isCall
    rw [List.length_drop] at extent
    show blanks + 0 + call.total ≤ text.length
    omega

end MatlabDocs
