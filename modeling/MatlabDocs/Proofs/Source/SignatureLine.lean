import MatlabDocs.Proofs.Function.NameLists
import MatlabDocs.Proofs.Function.SpacedPreparation

/-!
# Signature lines

A signature on one line: the keyword, the outputs with an equals sign if there are any, the
name, and the arguments in parentheses.  Its gaps are single blanks, and such a line is prepared
as it stands.
-/

namespace MatlabDocs

structure SignatureLine where
  outputs : List Identifier
  name : Identifier
  arguments : List Identifier
  deriving DecidableEq, Repr

def assignmentText : List Identifier → Text
  | [] => []
  | first :: others => outputsText (first :: others) ++ "= "

namespace SignatureLine

variable (line : SignatureLine)

def callText : Text :=
  line.name.text ++ '(' :: (listText line.arguments ++ [')'])

def headText : Text :=
  assignmentText line.outputs ++ line.callText

def text : Text :=
  ("function" : Text) ++ ' ' :: line.headText

def assignment : Option Assignment :=
  if line.outputs = [] then none else some ⟨outputsOf line.outputs, .blank, .blank⟩

def call : SpacedCall :=
  ⟨.empty, cellsOf (line.arguments.map .named)⟩

def spaced : SpacedSignature where
  keywordGap := .blank
  assignment := line.assignment
  name := line.name
  call := some line.call
  ending := .empty
  spaced := fun noGap => absurd noGap (List.cons_ne_nil _ _)

theorem inner_call : line.call.inner = listText line.arguments := by
  rw [SpacedCall.inner, call, cellsText_cellsOf, List.map_map]
  rfl

theorem assignmentText_spaced : line.spaced.assignmentText none = assignmentText line.outputs := by
  have isAssignment : line.spaced.assignment = line.assignment := rfl
  rw [SpacedSignature.assignmentText, isAssignment, assignment]
  cases line.outputs with
  | nil => rfl
  | cons first others =>
    rw [assignmentText, outputsText_eq (List.cons_ne_nil first others), if_neg (by simp)]
    simp [Assignment.text, spelled_none, Gap.blank]

theorem text_spaced : line.spaced.text = line.text := by
  have isCall : line.spaced.callText = '(' :: (listText line.arguments ++ [')']) := by
    rw [← inner_call]
    rfl
  have noEnding : line.spaced.ending.text = [] := rfl
  rw [SpacedSignature.text, SpacedSignature.written, assignmentText_spaced, isCall, noEnding,
    List.append_nil]
  rfl

theorem not_mem_text {sign : Char} (other : isSpacedCharacter sign = false) : sign ∉ line.text := by
  rw [← text_spaced]
  exact line.spaced.not_mem_text other

private theorem addParentheses_text (below : Text) :
    addParentheses (line.text ++ below) = line.text ++ parenthesizeFrom false below := by
  have named : ∀ c ∈ cellsText Identifier.text (cellsOf line.arguments), c ≠ '~' :=
    forall_mem_cellsText
      (fun word c member => ne_of_test (word.isAsciiWord_of_mem c member) (by decide))
      (fun c indent => ne_of_test indent (by decide)) (by decide) _
  have unmarked : line.spaced.callMark line.call = none := by
    refine if_neg fun ignored => ?_
    rw [inner_call, listText, ← cellsText_cellsOf] at ignored
    exact named '~' (List.mem_of_head? ignored) rfl
  rw [← text_spaced]
  cases isFound : line.spaced.assignment with
  | none => exact line.spaced.addParentheses_unassigned_call isFound rfl below
  | some found =>
    rw [line.spaced.addParentheses_assigned_call isFound rfl below, unmarked]
    rfl

theorem prepareCode_text (tail : Text) :
    prepareCode (line.text ++ '\n' :: tail) =
      line.text ++ '\n' :: parenthesizeFrom true (joinContinuedLines tail) := by
  have keptHeader : dropHeader (line.text ++ '\n' :: tail) = line.text ++ '\n' :: tail :=
    dropHeader_cons _ (by decide) (by decide) (by decide)
  have joined : joinContinuedLines (line.text ++ '\n' :: tail) =
      line.text ++ joinContinuedLines ('\n' :: tail) := by
    rw [← text_spaced]
    exact line.spaced.joinContinuedLines_text_append _
  have below : joinContinuedLines ('\n' :: tail) = '\n' :: joinContinuedLines tail :=
    @joinContinuedLines_append ['\n'] (by simp [isContinuationSign]) tail
  rw [prepareCode, keptHeader, joined, below, addParentheses_text, parenthesizeFrom_cons (by simp)]
  rfl

end SignatureLine

end MatlabDocs
