import MatlabDocs.Proofs.Function.SpacedLists

/-!
# Names in a signature

The outputs and the arguments of a signature are lists of names.  Written in the usual way, with
a blank behind each comma and brackets around two and more outputs, they are read back name by
name.
-/

namespace MatlabDocs

open Identifier

section

variable {α : Type} (spell : α → Text)

def cellsOf : List α → List (Cell α)
  | [] => []
  | first :: others => .item .empty first .empty :: others.map (.item .blank · .empty)

theorem map_bare_cellsOf (words : List α) :
    (cellsOf words).map (Cell.bare spell) = words.map spell := by
  cases words with
  | nil => rfl
  | cons first others => simp [cellsOf, Cell.bare]

theorem cellsText_cellsOf (words : List α) :
    cellsText spell (cellsOf words) = Text.joinWith ", " (words.map spell) := by
  have behind : ∀ (front : Gap) (first : α) (others : List α),
      cellsText spell (.item front first .empty :: others.map (.item .blank · .empty)) =
        front.text ++ Text.joinWith ", " ((first :: others).map spell) := by
    intro front first others
    induction others generalizing front first with
    | nil => simp [cellsText_singleton, Cell.text, Gap.empty, Text.joinWith_singleton]
    | cons next others ih =>
      rw [List.map_cons, cellsText_cons_cons, ih .blank next]
      simp [Cell.text, Gap.empty, Gap.blank, Text.joinWith_cons_cons]
  cases words with
  | nil => rfl
  | cons first others => exact behind .empty first others

end

def outputsText : List Identifier → Text
  | [] => []
  | [only] => only.text ++ " "
  | names => "[" ++ listText names ++ "] "

def outputsOf : List Identifier → SpacedOutputs
  | [only] => .single only
  | names => .commas (cellsOf names)

theorem outputsText_eq {names : List Identifier} (notEmpty : names ≠ []) :
    outputsText names = (outputsOf names).text text ++ Gap.blank.text := by
  match names, notEmpty with
  | [only], _ => rfl
  | first :: second :: others, _ =>
    have inner := cellsText_cellsOf text (first :: second :: others)
    simp [outputsText, outputsOf, SpacedOutputs.text, SpacedOutputs.isBracketed,
      SpacedOutputs.inner, inner, listText, Gap.blank]

theorem isTidy_outputsOf (names : List Identifier) : (outputsOf names).isTidy := by
  unfold outputsOf
  split
  · rfl
  · rfl

theorem words_outputsOf (names : List Identifier) :
    (outputsOf names).words text = names.map text := by
  unfold outputsOf
  split
  · rfl
  · exact map_bare_cellsOf text _

namespace FunctionDef

variable {names : List Identifier}

theorem foundNames_map (notEmpty : names ≠ []) :
    foundNames (names.map text) = some (names.map text) := by
  obtain ⟨first, others, rfl⟩ := List.exists_cons_of_ne_nil notEmpty
  simp [foundNames, first.text_ne_nil]

theorem outputNames_outputsText (notEmpty : names ≠ []) :
    outputNames (outputsText names) = some (names.map text) := by
  rw [outputsText_eq notEmpty, (outputsOf names).outputNames_text_append isSpelling_identifier
    (isTidy_outputsOf names) .blank fun _ => by simp [Gap.blank], words_outputsOf,
    foundNames_map notEmpty]

end FunctionDef

end MatlabDocs
