import Mathlib.Data.List.TakeWhile
import MatlabDocs.Proofs.Source.EndedComments

/-!
# Signatures with outputs as they stand in code

A signature is made of an indentation, the keyword, the outputs, an equals sign, the name and the
arguments.  The brackets of the outputs and those of the arguments may each be missing, and so may
the names between them; gaps may hold line feeds.  A search at the start of a text finds such a
signature exactly if there is one, and each of its parts is as long as it can be.
-/

namespace MatlabDocs

open List

section

variable {α : Type} {test : α → Bool} {run rest : List α}

theorem head?_dropWhile_eq_false (test : α → Bool) (items : List α) :
    ∀ item ∈ (items.dropWhile test).head?, test item = false := by
  intro item member
  have stops := head?_dropWhile_not test items
  rw [Option.mem_def.mp member] at stops
  simpa using stops

theorem head?_append_of_head? (stops : ∀ item ∈ run.head?, test item = false)
    (ends : ∀ item ∈ rest.head?, test item = false) :
    ∀ item ∈ (run ++ rest).head?, test item = false := by
  cases run with
  | nil => exact ends
  | cons item run => exact stops

end

/-- One sign that may be missing. -/
def IsOptional (sign : Char) (text : Text) : Prop :=
  text = [] ∨ text = [sign]

theorem skipOne_cons_self (sign : Char) (rest : Text) : skipOne sign (sign :: rest) = rest := by
  simp [skipOne]

variable {sign c : Char}

theorem skipOne_cons_of_ne (different : c ≠ sign) (rest : Text) :
    skipOne sign (c :: rest) = c :: rest := by
  simp [skipOne, different]

theorem exists_skipOne (sign : Char) (text : Text) :
    ∃ taken, IsOptional sign taken ∧ text = taken ++ skipOne sign text ∧
      (taken = [] → (skipOne sign text).head? ≠ some sign) := by
  cases text with
  | nil => exact ⟨[], Or.inl rfl, rfl, fun _ => by simp [skipOne]⟩
  | cons c rest =>
    by_cases same : c = sign
    · subst same
      rw [skipOne_cons_self]
      exact ⟨[c], Or.inr rfl, rfl, fun empty => absurd empty (cons_ne_nil c [])⟩
    · rw [skipOne_cons_of_ne same]
      exact ⟨[], Or.inl rfl, rfl, fun _ => by simpa using same⟩

theorem skipOne_of_head? {text : Text} (different : text.head? ≠ some sign) :
    skipOne sign text = text := by
  cases text with
  | nil => rfl
  | cons c rest => exact skipOne_cons_of_ne (fun same => different (congrArg some same)) rest

theorem IsOptional.skipOne_append {taken rest : Text} (optional : IsOptional sign taken)
    (stops : taken = [] → rest.head? ≠ some sign) : skipOne sign (taken ++ rest) = rest := by
  rcases optional with rfl | rfl
  · exact skipOne_of_head? (stops rfl)
  · exact skipOne_cons_self sign rest

theorem isListed_of_isGap (gap : isGap c) : isListed c := by
  simp [isListed, gap]

section

/-- Names, a bracket behind them that may be missing, and a gap. -/
def IsListEnd (text : Text) : Prop :=
  ∃ names closing gap, (∀ c ∈ names, isListed c) ∧ IsOptional ']' closing ∧
    (∀ c ∈ gap, isGap c) ∧ text = names ++ (closing ++ gap)

/-- What may stand between the keyword of a signature and its equals sign. -/
def IsOutputs (text : Text) : Prop :=
  ∃ gap opening behind, (∀ c ∈ gap, isGap c) ∧ IsOptional '[' opening ∧ IsListEnd behind ∧
    text = gap ++ (opening ++ behind)

def behindOutputs (text : Text) : Text :=
  (skipOne ']' ((skipOne '[' (text.dropWhile isGap)).dropWhile isListed)).dropWhile isGap

variable {text : Text}

theorem IsListEnd.behind_eq_nil (listEnd : IsListEnd text) :
    (skipOne ']' (text.dropWhile isListed)).dropWhile isGap = [] := by
  obtain ⟨names, closing, gap, listed, optional, isGap_gap, rfl⟩ := listEnd
  rcases optional with rfl | rfl
  · have all : ∀ c ∈ names ++ gap, isListed c :=
      forall_mem_append.mpr ⟨listed, fun c member => isListed_of_isGap (isGap_gap c member)⟩
    rw [nil_append, dropWhile_eq_nil_iff.mpr all]
    rfl
  · rw [singleton_append, dropWhile_append_cons listed (by decide), skipOne_cons_self]
    exact dropWhile_eq_nil_iff.mpr isGap_gap

theorem IsListEnd.dropWhile_isGap (listEnd : IsListEnd text) :
    IsListEnd (text.dropWhile isGap) := by
  obtain ⟨names, closing, gap, listed, optional, isGap_gap, rfl⟩ := listEnd
  induction names with
  | nil =>
    rcases optional with rfl | rfl
    · refine ⟨[], [], [], by simp, Or.inl rfl, by simp, ?_⟩
      exact dropWhile_eq_nil_iff.mpr isGap_gap
    · refine ⟨[], [']'], gap, by simp, Or.inr rfl, isGap_gap, ?_⟩
      exact dropWhile_cons_of_neg (by decide)
  | cons c names ih =>
    rw [cons_append, dropWhile_cons]
    split
    · exact ih (forall_mem_cons.mp listed).2
    · exact ⟨c :: names, closing, gap, listed, optional, isGap_gap, rfl⟩

private theorem IsListEnd.head?_ne (listEnd : IsListEnd text) : text.head? ≠ some '[' := by
  obtain ⟨names, closing, gap, listed, optional, isGap_gap, rfl⟩ := listEnd
  intro starts
  have member := mem_of_head? starts
  rcases mem_append.mp member with inNames | behind
  · exact absurd (listed _ inNames) (by decide)
  rcases mem_append.mp behind with inClosing | inGap
  · rcases optional with rfl | rfl
    · exact absurd inClosing (by simp)
    · exact absurd inClosing (by simp)
  · exact absurd (isGap_gap _ inGap) (by decide)

theorem IsOutputs.behindOutputs_eq_nil (isOutputs : IsOutputs text) : behindOutputs text = [] := by
  obtain ⟨gap, opening, behind, isGap_gap, optional, listEnd, rfl⟩ := isOutputs
  rw [behindOutputs, dropWhile_append_of_pos isGap_gap]
  rcases optional with rfl | rfl
  · have fromNames := listEnd.dropWhile_isGap
    rw [nil_append, skipOne_of_head? fromNames.head?_ne]
    exact fromNames.behind_eq_nil
  · rw [singleton_append, dropWhile_cons_of_neg (by decide), skipOne_cons_self]
    exact listEnd.behind_eq_nil

theorem exists_isListEnd_append (text : Text) :
    ∃ front, IsListEnd front ∧
      text = front ++ (skipOne ']' (text.dropWhile isListed)).dropWhile isGap := by
  let fromClosing := text.dropWhile isListed
  let fromGap := skipOne ']' fromClosing
  obtain ⟨closing, isClosing, splitClosing, _⟩ := exists_skipOne ']' fromClosing
  refine ⟨text.takeWhile isListed ++ (closing ++ fromGap.takeWhile isGap),
    ⟨_, _, _, fun _ => mem_takeWhile_imp, isClosing, fun _ => mem_takeWhile_imp, rfl⟩, ?_⟩
  calc
    text = text.takeWhile isListed ++ fromClosing := takeWhile_append_dropWhile.symm
    _ = text.takeWhile isListed ++ (closing ++ fromGap) := by rw [← splitClosing]
    _ = text.takeWhile isListed ++ (closing ++ (fromGap.takeWhile isGap ++
          fromGap.dropWhile isGap)) := by
        rw [takeWhile_append_dropWhile]
    _ = _ := by simp [fromGap, fromClosing]

theorem exists_isOutputs_append (text : Text) :
    ∃ outputs, IsOutputs outputs ∧ text = outputs ++ behindOutputs text := by
  let fromOpening := text.dropWhile isGap
  let fromNames := skipOne '[' fromOpening
  obtain ⟨opening, isOpening, splitOpening, _⟩ := exists_skipOne '[' fromOpening
  obtain ⟨behind, listEnd, splitNames⟩ := exists_isListEnd_append fromNames
  refine ⟨text.takeWhile isGap ++ (opening ++ behind),
    ⟨_, _, _, fun _ => mem_takeWhile_imp, isOpening, listEnd, rfl⟩, ?_⟩
  calc
    text = text.takeWhile isGap ++ fromOpening := takeWhile_append_dropWhile.symm
    _ = text.takeWhile isGap ++ (opening ++ fromNames) := by rw [splitOpening]
    _ = text.takeWhile isGap ++ (opening ++ (behind ++ behindOutputs text)) :=
        congrArg (fun rest => text.takeWhile isGap ++ (opening ++ rest)) splitNames
    _ = _ := by simp

private theorem behindOutputs_append_equals (front rest : Text) :
    behindOutputs (front ++ '=' :: rest) = behindOutputs front ++ '=' :: rest := by
  rw [behindOutputs, behindOutputs, dropWhile_append_stop (by decide),
    skipOne_append_stop rest (by decide), dropWhile_append_stop (by decide),
    skipOne_append_stop rest (by decide), dropWhile_append_stop (by decide)]

/-- The equals sign of a signature comes behind an indentation, the keyword and the outputs. -/
theorem behindEquals?_eq_some_iff {after : Text} :
    behindEquals? text = some after ↔
      ∃ indentation outputs, (∀ c ∈ indentation, isIndent c) ∧ IsOutputs outputs ∧
        text = indentation ++ (("function" : Text) ++ (outputs ++ '=' :: after)) := by
  constructor
  · intro found
    obtain ⟨afterKeyword, isKeyword, isEquals⟩ := Option.bind_eq_some_iff.mp found
    obtain ⟨outputs, isOutputs, splitOutputs⟩ := exists_isOutputs_append afterKeyword
    refine ⟨text.takeWhile isIndent, outputs, fun _ => mem_takeWhile_imp, isOutputs, ?_⟩
    have fromEquals : behindOutputs afterKeyword = '=' :: after :=
      Text.eq_append_of_afterStart? isEquals
    rw [← fromEquals, ← splitOutputs, ← Text.eq_append_of_afterStart? isKeyword,
      takeWhile_append_dropWhile]
  · rintro ⟨indentation, outputs, isIndent_indentation, isOutputs, rfl⟩
    have fromKeyword : (indentation ++ (("function" : Text) ++ (outputs ++ '=' :: after))).dropWhile
        isIndent = ("function" : Text) ++ (outputs ++ '=' :: after) :=
      dropWhile_append_of_head? isIndent_indentation (by simp [isIndent])
    have fromEquals : behindOutputs (outputs ++ '=' :: after) = ['='] ++ after := by
      rw [behindOutputs_append_equals, isOutputs.behindOutputs_eq_nil]
      rfl
    rw [behindEquals?, fromKeyword, Text.afterStart?_append, Option.bind_some]
    exact (congrArg (Text.afterStart? ['=']) fromEquals).trans (Text.afterStart?_append ['='] after)

end

/-- What may stand behind the name of a function: a gap and an argument list, of which each part
may be missing. -/
structure WrittenCall where
  gap : Text
  opening : Text
  arguments : Text
  closing : Text
  isGap_gap : ∀ c ∈ gap, isGap c
  isOptional_opening : IsOptional '(' opening
  isListed_arguments : ∀ c ∈ arguments, isListed c
  isOptional_closing : IsOptional ')' closing

namespace WrittenCall

def text (call : WrittenCall) : Text :=
  call.gap ++ (call.opening ++ (call.arguments ++ call.closing))

theorem text_append (call : WrittenCall) (rest : Text) :
    call.text ++ rest =
      call.gap ++ (call.opening ++ (call.arguments ++ (call.closing ++ rest))) := by
  simp [text]

/-- No part of the call goes on in the text behind it. -/
structure EndsAt (call : WrittenCall) (rest : Text) : Prop where
  gap : ∀ c ∈ (call.opening ++ (call.arguments ++ (call.closing ++ rest))).head?, isGap c = false
  opening : call.opening = [] → (call.arguments ++ (call.closing ++ rest)).head? ≠ some '('
  arguments : ∀ c ∈ (call.closing ++ rest).head?, isListed c = false
  closing : call.closing = [] → rest.head? ≠ some ')'

theorem exists_text_append (text : Text) :
    ∃ (call : WrittenCall) (rest : Text), text = call.text ++ rest ∧ call.EndsAt rest := by
  obtain ⟨opening, isOpening, splitOpening, noOpening⟩ := exists_skipOne '(' (text.dropWhile isGap)
  let fromArguments := skipOne '(' (text.dropWhile isGap)
  obtain ⟨closing, isClosing, splitClosing, noClosing⟩ :=
    exists_skipOne ')' (fromArguments.dropWhile isListed)
  let rest := skipOne ')' (fromArguments.dropWhile isListed)
  have closed : closing ++ rest = fromArguments.dropWhile isListed := splitClosing.symm
  have listed : fromArguments.takeWhile isListed ++ fromArguments.dropWhile isListed =
      fromArguments := takeWhile_append_dropWhile
  have opened : opening ++ fromArguments = text.dropWhile isGap := splitOpening.symm
  let call : WrittenCall :=
    { gap := text.takeWhile isGap
      opening
      arguments := fromArguments.takeWhile isListed
      closing
      isGap_gap := fun _ => mem_takeWhile_imp
      isOptional_opening := isOpening
      isListed_arguments := fun _ => mem_takeWhile_imp
      isOptional_closing := isClosing }
  refine ⟨call, rest, ?_, ?_, ?_, ?_, noClosing⟩
  · rw [text_append]
    simp [call, closed, listed, opened]
  · simp only [call, closed, listed, opened]
    exact head?_dropWhile_eq_false isGap text
  · simp only [call, closed, listed]
    exact noOpening
  · simp only [call, closed]
    exact head?_dropWhile_eq_false isListed fromArguments

end WrittenCall

/-- A signature with outputs, cut into its parts. -/
structure WrittenSignature where
  indentation : Text
  outputs : Text
  nameGap : Text
  name : Text
  call : WrittenCall
  isIndent_indentation : ∀ c ∈ indentation, isIndent c
  isOutputs : IsOutputs outputs
  isGap_nameGap : ∀ c ∈ nameGap, isGap c
  name_ne_nil : name ≠ []
  isWord_name : ∀ c ∈ name, isWord c

theorem not_isGap_of_isWord (word : isWord c) : isGap c = false := by
  have blank : c ≠ ' ' := ne_of_test word (by decide)
  have tab : c ≠ '\t' := ne_of_test word (by decide)
  have dot : c ≠ '.' := ne_of_test word (by decide)
  have lineFeed : c ≠ '\n' := ne_of_test word (by decide)
  simp [isGap, isIndent, blank, tab, dot, lineFeed]

namespace WrittenSignature

variable (signature : WrittenSignature)

def head : Text :=
  signature.indentation ++ (("function" : Text) ++ (signature.outputs ++ '=' :: signature.nameGap))

def text : Text :=
  signature.head ++ (signature.name ++ signature.call.text)

/-- No part of the signature goes on in the text behind it. -/
structure EndsAt (rest : Text) : Prop where
  name : ∀ c ∈ (signature.call.text ++ rest).head?, isWord c = false
  call : signature.call.EndsAt rest

theorem text_ne_nil : signature.text ≠ [] := by
  rw [text, ← append_assoc]
  refine append_ne_nil_of_left_ne_nil ?_ _
  exact append_ne_nil_of_right_ne_nil _ signature.name_ne_nil

theorem text_append (rest : Text) :
    signature.text ++ rest = signature.indentation ++ (("function" : Text) ++
      (signature.outputs ++ '=' :: (signature.nameGap ++
        (signature.name ++ (signature.call.text ++ rest))))) := by
  simp [text, head]

theorem head?_name_append (behind : Text) :
    ∀ c ∈ (signature.name ++ behind).head?, isGap c = false := by
  intro c member
  obtain ⟨first, others, shape⟩ := exists_cons_of_ne_nil signature.name_ne_nil
  rw [shape, cons_append, head?_cons, Option.mem_some] at member
  exact not_isGap_of_isWord (signature.isWord_name c (by simp [shape, member]))

/-- A signature at the start of a text is found with the parts it has. -/
theorem assignedSignature?_text_append {rest : Text} (ends : signature.EndsAt rest) :
    assignedSignature? (signature.text ++ rest) =
      some ⟨signature.name, signature.call.arguments, rest⟩ := by
  have isBehind : behindEquals? (signature.text ++ rest) =
      some (signature.nameGap ++ (signature.name ++ (signature.call.text ++ rest))) :=
    behindEquals?_eq_some_iff.mpr ⟨_, _, signature.isIndent_indentation, signature.isOutputs,
      signature.text_append rest⟩
  have atCall := ends.call
  rw [assignedSignature?_eq_bind, isBehind, Option.bind_some, namedSignature?]
  simp only [dropWhile_append_of_head? signature.isGap_nameGap (signature.head?_name_append _),
    takeWhile_append_of_head? signature.isWord_name ends.name,
    dropWhile_append_of_head? signature.isWord_name ends.name, if_neg signature.name_ne_nil]
  simp [signature.call.text_append, dropWhile_append_of_head? signature.call.isGap_gap atCall.gap,
    signature.call.isOptional_opening.skipOne_append atCall.opening,
    takeWhile_append_of_head? signature.call.isListed_arguments atCall.arguments,
    dropWhile_append_of_head? signature.call.isListed_arguments atCall.arguments,
    signature.call.isOptional_closing.skipOne_append atCall.closing]

end WrittenSignature

/-- What is found at the start of a text is a signature, and none of its parts goes on. -/
theorem exists_writtenSignature_of_assignedSignature? {text : Text} {found : AssignedSignature}
    (isFound : assignedSignature? text = some found) :
    ∃ signature : WrittenSignature, text = signature.text ++ found.rest ∧
      signature.name = found.name ∧ signature.call.arguments = found.arguments ∧
        signature.EndsAt found.rest := by
  have isBound := isFound
  rw [assignedSignature?_eq_bind] at isBound
  obtain ⟨afterEquals, isBehind, isNamed⟩ := Option.bind_eq_some_iff.mp isBound
  obtain ⟨indentation, outputs, isIndent_indentation, isOutputs, split⟩ :=
    behindEquals?_eq_some_iff.mp isBehind
  have notEmpty : (afterEquals.dropWhile isGap).takeWhile isWord ≠ [] := by
    intro empty
    rw [namedSignature?] at isNamed
    simp only [empty, if_true] at isNamed
    cases isNamed
  obtain ⟨call, rest, isCall, callEnds⟩ :=
    WrittenCall.exists_text_append ((afterEquals.dropWhile isGap).dropWhile isWord)
  let signature : WrittenSignature :=
    { indentation, outputs
      nameGap := afterEquals.takeWhile isGap
      name := (afterEquals.dropWhile isGap).takeWhile isWord
      call
      isIndent_indentation, isOutputs
      isGap_nameGap := fun _ => mem_takeWhile_imp
      name_ne_nil := notEmpty
      isWord_name := fun _ => mem_takeWhile_imp }
  have whole : text = signature.text ++ rest := by
    rw [signature.text_append]
    simp only [signature, ← isCall, takeWhile_append_dropWhile]
    exact split
  have ends : signature.EndsAt rest := by
    refine ⟨?_, callEnds⟩
    simp only [signature, ← isCall]
    exact head?_dropWhile_eq_false isWord _
  -- The search finds these parts, so they are the ones that were found.
  have same := signature.assignedSignature?_text_append ends
  rw [← whole, isFound] at same
  obtain rfl := Option.some.inj same
  exact ⟨signature, whole, rfl, rfl, ends⟩

theorem run_append_inj {α : Type} {test : α → Bool} {run rest other more : List α}
    (passes : ∀ item ∈ run, test item) (stops : ∀ item ∈ rest.head?, test item = false)
    (otherPasses : ∀ item ∈ other, test item) (otherStops : ∀ item ∈ more.head?, test item = false)
    (same : run ++ rest = other ++ more) : run = other ∧ rest = more := by
  have runs := congrArg (List.takeWhile test) same
  have rests := congrArg (List.dropWhile test) same
  rw [takeWhile_append_of_head? passes stops, takeWhile_append_of_head? otherPasses otherStops]
    at runs
  rw [dropWhile_append_of_head? passes stops, dropWhile_append_of_head? otherPasses otherStops]
    at rests
  exact ⟨runs, rests⟩

theorem IsOptional.append_inj {sign : Char} {taken rest other more : Text}
    (optional : IsOptional sign taken) (stops : taken = [] → rest.head? ≠ some sign)
    (otherOptional : IsOptional sign other) (otherStops : other = [] → more.head? ≠ some sign)
    (same : taken ++ rest = other ++ more) : taken = other ∧ rest = more := by
  have rests := congrArg (skipOne sign) same
  rw [optional.skipOne_append stops, otherOptional.skipOne_append otherStops] at rests
  rw [rests] at same
  exact ⟨append_cancel_right same, rests⟩

theorem WrittenCall.eq_of_text_append_eq {first second : WrittenCall} {rest more : Text}
    (ends : first.EndsAt rest) (otherEnds : second.EndsAt more)
    (same : first.text ++ rest = second.text ++ more) : first = second ∧ rest = more := by
  rw [first.text_append, second.text_append] at same
  obtain ⟨sameGap, fromOpening⟩ := run_append_inj first.isGap_gap ends.gap second.isGap_gap
    otherEnds.gap same
  obtain ⟨sameOpening, fromArguments⟩ := first.isOptional_opening.append_inj ends.opening
    second.isOptional_opening otherEnds.opening fromOpening
  obtain ⟨sameArguments, fromClosing⟩ := run_append_inj first.isListed_arguments ends.arguments
    second.isListed_arguments otherEnds.arguments fromArguments
  obtain ⟨sameClosing, sameRest⟩ := first.isOptional_closing.append_inj ends.closing
    second.isOptional_closing otherEnds.closing fromClosing
  refine ⟨?_, sameRest⟩
  cases first
  cases second
  simp only [mk.injEq]
  exact ⟨sameGap, sameOpening, sameArguments, sameClosing⟩

private theorem IsOutputs.ne_equals {text : Text} (isOutputs : IsOutputs text) :
    ∀ c ∈ text, (c != '=') = true := by
  obtain ⟨gap, opening, behind, isGap_gap, isOpening, listEnd, rfl⟩ := isOutputs
  obtain ⟨names, closing, back, listed, isClosing, isGap_back, rfl⟩ := listEnd
  have plain : ∀ {sign : Char} {part : Text}, (sign != '=') = true → IsOptional sign part →
      ∀ c ∈ part, (c != '=') = true := by
    rintro sign part different (rfl | rfl)
    · simp
    · simpa using different
  have ofGap : ∀ {part : Text}, (∀ c ∈ part, isGap c) → ∀ c ∈ part, (c != '=') = true :=
    fun gaps c member => by simpa using ne_of_test (gaps c member) (by decide)
  refine forall_mem_append.mpr ⟨ofGap isGap_gap, forall_mem_append.mpr
    ⟨plain (by decide) isOpening, forall_mem_append.mpr ⟨?_, forall_mem_append.mpr
      ⟨plain (by decide) isClosing, ofGap isGap_back⟩⟩⟩⟩
  exact fun c member => by simpa using ne_of_test (listed c member) (by decide)

/-- A text starts with one signature at most, since each part is as long as it can be. -/
theorem WrittenSignature.eq_of_text_append_eq {first second : WrittenSignature} {rest more : Text}
    (ends : first.EndsAt rest) (otherEnds : second.EndsAt more)
    (same : first.text ++ rest = second.text ++ more) : first = second ∧ rest = more := by
  rw [first.text_append, second.text_append] at same
  have keyword : ∀ behind : Text, ∀ c ∈ (("function" : Text) ++ behind).head?,
      isIndent c = false := by
    simp [isIndent]
  obtain ⟨sameIndentation, fromKeyword⟩ := run_append_inj first.isIndent_indentation (keyword _)
    second.isIndent_indentation (keyword _) same
  have fromOutputs := append_cancel_left fromKeyword
  obtain ⟨sameOutputs, -, fromGap⟩ := append_cons_inj first.isOutputs.ne_equals (by decide)
    second.isOutputs.ne_equals (by decide) fromOutputs
  obtain ⟨sameNameGap, fromName⟩ := run_append_inj first.isGap_nameGap
    (first.head?_name_append _) second.isGap_nameGap (second.head?_name_append _) fromGap
  obtain ⟨sameName, fromCall⟩ := run_append_inj first.isWord_name ends.name second.isWord_name
    otherEnds.name fromName
  obtain ⟨sameCall, sameRest⟩ :=
    WrittenCall.eq_of_text_append_eq ends.call otherEnds.call fromCall
  refine ⟨?_, sameRest⟩
  cases first
  cases second
  simp only [mk.injEq]
  exact ⟨sameIndentation, sameOutputs, sameNameGap, sameName, sameCall⟩

end MatlabDocs
