import MatlabDocs.Definition.Function
import MatlabDocs.Proofs.Text.Identifier
import MatlabDocs.Proofs.Source.AddedParentheses

/-!
# Signatures with any blanks

A signature line is made of words and signs with gaps between them, which are runs of blanks and
tabs.  Squeezing a line leaves one blank of each gap that is not empty.  So two lines with the same
squeezed text differ in the length and the kind of their gaps only, and they have the same words.
Parentheses that are put behind a name in a line go into its words and leave its gaps as they are.
-/

namespace MatlabDocs

open List

section

/-- Keeps one blank of each run of blanks and tabs; the flag says whether such a run is open. -/
def squeezeFrom (inGap : Bool) : Text → Text
  | [] => []
  | c :: rest =>
    if isIndent c then
      if inGap then squeezeFrom true rest else ' ' :: squeezeFrom true rest
    else c :: squeezeFrom false rest

def squeeze (text : Text) : Text :=
  squeezeFrom false text

variable {rest : Text}

theorem squeezeFrom_of_head? (starts : ∀ c ∈ rest.head?, isIndent c = false) :
    squeezeFrom true rest = squeeze rest := by
  cases rest with
  | nil => rfl
  | cons c rest => simp [squeeze, squeezeFrom, starts c rfl]

theorem squeezeFrom_indents_append {indents : Text} (isIndents : ∀ c ∈ indents, isIndent c) :
    squeezeFrom true (indents ++ rest) = squeezeFrom true rest := by
  induction indents with
  | nil => rfl
  | cons c indents ih =>
    obtain ⟨indent, others⟩ := forall_mem_cons.mp isIndents
    rw [cons_append, squeezeFrom, if_pos indent, if_pos rfl, ih others]

theorem squeeze_append {word : Text} (plain : ∀ c ∈ word, isIndent c = false) :
    squeeze (word ++ rest) = word ++ squeeze rest := by
  induction word with
  | nil => rfl
  | cons c word ih =>
    obtain ⟨notIndent, others⟩ := forall_mem_cons.mp plain
    rw [cons_append, squeeze, squeezeFrom, if_neg (by simp [notIndent]), cons_append]
    exact congrArg (c :: ·) (ih others)

end

theorem isBlank_of_isIndent {c : Char} (indent : isIndent c) : isBlank c := by
  have isSign : c = ' ' ∨ c = '\t' := by simpa [isIndent] using indent
  rcases isSign with rfl | rfl
  · decide
  · decide

/-- A run of blanks and tabs, which may be empty. -/
structure Gap where
  text : Text
  isIndent_of_mem : ∀ c ∈ text, isIndent c

namespace Gap

def empty : Gap := ⟨[], forall_mem_empty isIndent⟩

def blank : Gap := ⟨[' '], by simp [isIndent]⟩

def squeezed (gap : Gap) : Gap :=
  if gap.text = [] then empty else blank

variable (gap : Gap)

theorem squeezed_text_eq_nil_iff : gap.squeezed.text = [] ↔ gap.text = [] := by
  rw [squeezed]
  split
  · exact iff_of_true rfl ‹_›
  · exact iff_of_false (cons_ne_nil _ _) ‹_›

theorem squeezed_squeezed : gap.squeezed.squeezed = gap.squeezed := by
  rw [squeezed, squeezed]
  split
  · rfl
  · rfl

theorem squeeze_text_append {rest : Text} (starts : ∀ c ∈ rest.head?, isIndent c = false) :
    squeeze (gap.text ++ rest) = gap.squeezed.text ++ squeeze rest := by
  rw [squeezed]
  split
  · rename_i noGap
    rw [noGap]
    rfl
  · rename_i isGap
    obtain ⟨c, others, shape⟩ := exists_cons_of_ne_nil isGap
    have indents := gap.isIndent_of_mem
    rw [shape] at indents ⊢
    obtain ⟨indent, isIndents⟩ := forall_mem_cons.mp indents
    rw [cons_append, squeeze, squeezeFrom, if_pos indent, if_neg (by simp),
      squeezeFrom_indents_append isIndents, squeezeFrom_of_head? starts]
    rfl

theorem isBlank_of_mem : ∀ c ∈ gap.text, isBlank c :=
  fun c member => isBlank_of_isIndent (gap.isIndent_of_mem c member)

theorem not_mem {sign : Char} (other : isIndent sign = false) : sign ∉ gap.text :=
  fun member => ne_of_test (gap.isIndent_of_mem sign member) other rfl

theorem not_isWord_of_mem : ∀ c ∈ gap.text, isWord c = false := by
  intro c member
  have isSign : c = ' ' ∨ c = '\t' := by simpa [isIndent] using gap.isIndent_of_mem c member
  rcases isSign with rfl | rfl
  · decide
  · decide

end Gap

/-- A gap between two words. -/
structure Separator extends Gap where
  notEmpty : text ≠ []

def Separator.blank : Separator := ⟨Gap.blank, cons_ne_nil _ _⟩

/-- An item of a list with commas: a word with the gaps around it, or nothing but a gap. -/
inductive Cell (α : Type) where
  | nothing (gap : Gap)
  | item (front : Gap) (word : α) (back : Gap)

namespace Cell

variable {α : Type} (spell : α → Text)

def text : Cell α → Text
  | nothing gap => gap.text
  | item front word back => front.text ++ (spell word ++ back.text)

def bare : Cell α → Text
  | nothing _ => []
  | item _ word _ => spell word

def squeezed : Cell α → Cell α
  | nothing gap => nothing gap.squeezed
  | item front word back => item front.squeezed word back.squeezed

theorem bare_squeezed (cell : Cell α) : cell.squeezed.bare spell = cell.bare spell := by
  cases cell with
  | nothing gap => rfl
  | item front word back => rfl

theorem squeezed_squeezed (cell : Cell α) : cell.squeezed.squeezed = cell.squeezed := by
  cases cell with
  | nothing gap => rw [squeezed, squeezed, gap.squeezed_squeezed]
  | item front word back =>
    rw [squeezed, squeezed, front.squeezed_squeezed, back.squeezed_squeezed]

end Cell

def cellsText {α : Type} (spell : α → Text) (cells : List (Cell α)) : Text :=
  Text.joinWith [','] (cells.map (Cell.text spell))

theorem cellsText_cons_cons {α : Type} (spell : α → Text) (cell next : Cell α)
    (cells : List (Cell α)) :
    cellsText spell (cell :: next :: cells) =
      cell.text spell ++ ',' :: cellsText spell (next :: cells) := by
  simp [cellsText, Text.joinWith_cons_cons]

theorem cellsText_singleton {α : Type} (spell : α → Text) (cell : Cell α) :
    cellsText spell [cell] = cell.text spell :=
  Text.joinWith_singleton _ _

/-- An argument may be ignored. -/
inductive Argument where
  | ignored
  | named (name : Identifier)

def Argument.text : Argument → Text
  | ignored => ['~']
  | named name => name.text

/-- The outputs of a signature: one word, or words in brackets with commas or gaps between them. -/
inductive SpacedOutputs where
  | single (word : Identifier)
  | commas (cells : List (Cell Identifier))
  | gaps (front : Gap) (first : Identifier) (others : List (Separator × Identifier)) (back : Gap)

namespace SpacedOutputs

variable (spell : Identifier → Text)

def othersText (others : List (Separator × Identifier)) : Text :=
  others.flatMap fun other => other.1.text ++ spell other.2

def inner : SpacedOutputs → Text
  | single word => spell word
  | commas cells => cellsText spell cells
  | gaps front first others back =>
    front.text ++ (spell first ++ (othersText spell others ++ back.text))

def isBracketed : SpacedOutputs → Bool
  | single _ => false
  | _ => true

def text (outputs : SpacedOutputs) : Text :=
  if outputs.isBracketed then '[' :: (outputs.inner spell ++ [']']) else outputs.inner spell

def words : SpacedOutputs → List Text
  | single word => [spell word]
  | commas cells => cells.map (Cell.bare spell)
  | gaps _ first others _ => spell first :: others.map fun other => spell other.2

def squeezed : SpacedOutputs → SpacedOutputs
  | single word => single word
  | commas cells => commas (cells.map Cell.squeezed)
  | gaps front first others back =>
    gaps front.squeezed first (others.map fun other => (Separator.blank, other.2)) back.squeezed

/-- Gaps that separate words have one character each. -/
def isTidy : SpacedOutputs → Bool
  | gaps _ _ others _ => others.all fun other => other.1.text.length == 1
  | _ => true

variable (outputs : SpacedOutputs)

theorem isBracketed_squeezed : outputs.squeezed.isBracketed = outputs.isBracketed := by
  cases outputs with
  | single word => rfl
  | commas cells => rfl
  | gaps front first others back => rfl

theorem words_squeezed : outputs.squeezed.words spell = outputs.words spell := by
  cases outputs with
  | single word => rfl
  | commas cells =>
    simp only [squeezed, words, List.map_map]
    exact map_congr_left fun cell _ => cell.bare_squeezed spell
  | gaps front first others back =>
    simp only [squeezed, words, List.map_map]
    rfl

theorem isTidy_squeezed : outputs.squeezed.isTidy := by
  cases outputs with
  | single word => rfl
  | commas cells => rfl
  | gaps front first others back =>
    simp only [squeezed, isTidy, all_map]
    exact all_eq_true.mpr fun _ _ => rfl

theorem squeezed_squeezed : outputs.squeezed.squeezed = outputs.squeezed := by
  cases outputs with
  | single word => rfl
  | commas cells =>
    simp only [squeezed, List.map_map]
    exact congrArg commas (map_congr_left fun cell _ => cell.squeezed_squeezed)
  | gaps front first others back =>
    simp only [squeezed, List.map_map, front.squeezed_squeezed, back.squeezed_squeezed]
    rfl

end SpacedOutputs

/-- Outputs with the equals sign behind them. -/
structure Assignment where
  outputs : SpacedOutputs
  before : Gap
  after : Gap

namespace Assignment

def text (spell : Identifier → Text) (assignment : Assignment) : Text :=
  assignment.outputs.text spell ++ (assignment.before.text ++ '=' :: assignment.after.text)

def squeezed (assignment : Assignment) : Assignment :=
  ⟨assignment.outputs.squeezed, assignment.before.squeezed, assignment.after.squeezed⟩

theorem squeezed_squeezed (assignment : Assignment) :
    assignment.squeezed.squeezed = assignment.squeezed := by
  simp [squeezed, SpacedOutputs.squeezed_squeezed, Gap.squeezed_squeezed]

end Assignment

/-- An argument list behind a name. -/
structure SpacedCall where
  gap : Gap
  arguments : List (Cell Argument)

namespace SpacedCall

variable (call : SpacedCall)

def text : Text :=
  call.gap.text ++ '(' :: (cellsText Argument.text call.arguments ++ [')'])

def squeezed : SpacedCall :=
  ⟨call.gap.squeezed, call.arguments.map Cell.squeezed⟩

theorem squeezed_squeezed : call.squeezed.squeezed = call.squeezed := by
  simp only [squeezed, Gap.squeezed_squeezed, List.map_map, mk.injEq, true_and]
  exact map_congr_left fun cell _ => cell.squeezed_squeezed

end SpacedCall

/-- A name that is marked by a pair of parentheses where it occurs. -/
structure Mark where
  name : Text
  name_ne_nil : name ≠ []
  isWord_of_mem : ∀ c ∈ name, isWord c

/-- The text with parentheses behind the occurrences of a name, if there is one to be marked. -/
def putMark (mark : Option Mark) (text : Text) : Text :=
  match mark with
  | none => text
  | some mark => Text.replace mark.name (mark.name ++ "()") text

def spelled (mark : Option Mark) (word : Identifier) : Text :=
  putMark mark word.text

theorem spelled_none : spelled none = Identifier.text :=
  rfl

/-- A signature on one line.  The keyword has a gap behind it, unless a bracket comes next. -/
structure SpacedSignature where
  keywordGap : Gap
  assignment : Option Assignment
  name : Identifier
  call : Option SpacedCall
  ending : Gap
  spaced : keywordGap.text = [] → ∃ found, assignment = some found ∧ found.outputs.isBracketed

namespace SpacedSignature

variable (signature : SpacedSignature) (mark : Option Mark)

def assignmentText : Text :=
  match signature.assignment with
  | none => []
  | some assignment => assignment.text (spelled mark)

def callText : Text :=
  match signature.call with
  | none => []
  | some call => call.text

/-- The line with marks in all its words but the arguments. -/
def written : Text :=
  putMark mark "function" ++ (signature.keywordGap.text ++ (signature.assignmentText mark ++
    (spelled mark signature.name ++ (signature.callText ++ signature.ending.text))))

def text : Text :=
  signature.written none

def squeezed : SpacedSignature where
  keywordGap := signature.keywordGap.squeezed
  assignment := signature.assignment.map Assignment.squeezed
  name := signature.name
  call := signature.call.map SpacedCall.squeezed
  ending := signature.ending.squeezed
  spaced := by
    intro noGap
    obtain ⟨found, isFound, bracketed⟩ :=
      signature.spaced (signature.keywordGap.squeezed_text_eq_nil_iff.mp noGap)
    refine ⟨found.squeezed, by rw [isFound]; rfl, ?_⟩
    rw [Assignment.squeezed, SpacedOutputs.isBracketed_squeezed]
    exact bracketed

variable (signature : SpacedSignature)

@[simp] theorem keywordGap_squeezed :
    signature.squeezed.keywordGap = signature.keywordGap.squeezed :=
  rfl

@[simp] theorem assignment_squeezed :
    signature.squeezed.assignment = signature.assignment.map Assignment.squeezed :=
  rfl

@[simp] theorem name_squeezed : signature.squeezed.name = signature.name :=
  rfl

@[simp] theorem call_squeezed : signature.squeezed.call = signature.call.map SpacedCall.squeezed :=
  rfl

/-- The gaps that are not passed over whatever they hold: a lone name has one character between
it and the keyword, outputs without commas have one between them, and there is no tab between a
closing bracket and the equals sign. -/
structure IsTidy (signature : SpacedSignature) : Prop where
  keyword : signature.assignment = none → signature.call = none →
    signature.keywordGap.text.length = 1
  separators : ∀ found, signature.assignment = some found → found.outputs.isTidy
  closing : ∀ found, signature.assignment = some found → found.outputs.isBracketed →
    '\t' ∉ found.before.text

theorem squeezed_squeezed : signature.squeezed.squeezed = signature.squeezed := by
  simp only [squeezed, Gap.squeezed_squeezed, Option.map_map, mk.injEq, true_and, and_true]
  constructor
  · exact Option.map_congr fun assignment _ => assignment.squeezed_squeezed
  · exact Option.map_congr fun call _ => call.squeezed_squeezed

theorem isTidy_squeezed : signature.squeezed.IsTidy where
  keyword := by
    intro unassigned _
    have isGap : signature.keywordGap.text ≠ [] := by
      intro noGap
      obtain ⟨found, isFound, _⟩ := signature.spaced noGap
      rw [assignment_squeezed, isFound] at unassigned
      cases unassigned
    rw [keywordGap_squeezed, Gap.squeezed, if_neg isGap]
    rfl
  separators := by
    intro found isFound
    obtain ⟨assignment, _, rfl⟩ := Option.map_eq_some_iff.mp isFound
    exact assignment.outputs.isTidy_squeezed
  closing := by
    intro found isFound _
    obtain ⟨assignment, _, rfl⟩ := Option.map_eq_some_iff.mp isFound
    rw [Assignment.squeezed, Gap.squeezed]
    split
    · exact not_mem_nil
    · simp [Gap.blank]

end SpacedSignature

section

/-- Characters of a word that may be marked or ignored. -/
def isSpelledCharacter (c : Char) : Bool :=
  isAsciiWord c || c == '(' || c == ')' || c == '~'

/-- How the words of a line are spelled. -/
structure IsSpelling {α : Type} (spell : α → Text) : Prop where
  ne_nil : ∀ word, spell word ≠ []
  isSpelled : ∀ word, ∀ c ∈ spell word, isSpelledCharacter c

variable {c : Char}

theorem not_isBlank_of_isSpelledCharacter (isSpelled : isSpelledCharacter c) :
    isBlank c = false := by
  simp only [isSpelledCharacter, Bool.or_eq_true, beq_iff_eq, or_assoc] at isSpelled
  rcases isSpelled with word | rfl | rfl | rfl
  · exact not_isBlank_of_isAsciiWord word
  · decide
  · decide
  · decide

theorem not_isIndent_of_isSpelledCharacter (isSpelled : isSpelledCharacter c) :
    isIndent c = false := by
  rw [Bool.eq_false_iff]
  intro indent
  have blank := isBlank_of_isIndent indent
  rw [not_isBlank_of_isSpelledCharacter isSpelled] at blank
  cases blank

namespace IsSpelling

variable {α : Type} {spell : α → Text} (spelling : IsSpelling spell)

include spelling

variable (word : α)

theorem not_isBlank : ∀ c ∈ spell word, isBlank c = false :=
  fun c member => not_isBlank_of_isSpelledCharacter (spelling.isSpelled word c member)

theorem not_isIndent : ∀ c ∈ spell word, isIndent c = false :=
  fun c member => not_isIndent_of_isSpelledCharacter (spelling.isSpelled word c member)

theorem not_mem {sign : Char} (other : isSpelledCharacter sign = false) (word : α) :
    sign ∉ spell word :=
  fun member => ne_of_test (spelling.isSpelled word sign member) other rfl

theorem head?_append (rest : Text) : ∀ c ∈ (spell word ++ rest).head?, isSpelledCharacter c := by
  intro c member
  obtain ⟨first, others, shape⟩ := exists_cons_of_ne_nil (spelling.ne_nil word)
  obtain rfl : first = c := by simpa [shape] using member
  exact spelling.isSpelled word first (by simp [shape])

theorem not_isIndent_head?_append (rest : Text) :
    ∀ c ∈ (spell word ++ rest).head?, isIndent c = false :=
  fun c member => not_isIndent_of_isSpelledCharacter (spelling.head?_append word rest c member)

end IsSpelling

theorem isSpelling_identifier : IsSpelling Identifier.text where
  ne_nil := Identifier.text_ne_nil
  isSpelled := fun word c member => by simp [isSpelledCharacter, word.isAsciiWord_of_mem c member]

theorem isSpelling_argument : IsSpelling Argument.text where
  ne_nil := by
    intro argument
    cases argument with
    | ignored => exact cons_ne_nil _ _
    | named name => exact name.text_ne_nil
  isSpelled := by
    intro argument
    cases argument with
    | ignored => simp [Argument.text, isSpelledCharacter]
    | named name => exact isSpelling_identifier.isSpelled name

end

section

variable {α : Type} {spell : α → Text} {rest : Text}

theorem squeeze_cons {c : Char} (notIndent : isIndent c = false) (rest : Text) :
    squeeze (c :: rest) = c :: squeeze rest :=
  @squeeze_append rest [c] (by simpa using notIndent)

theorem Cell.squeeze_text_append (spelling : IsSpelling spell) (cell : Cell α)
    (starts : ∀ c ∈ rest.head?, isIndent c = false) :
    squeeze (cell.text spell ++ rest) = cell.squeezed.text spell ++ squeeze rest := by
  cases cell with
  | nothing gap => exact gap.squeeze_text_append starts
  | item front word back =>
    simp only [text, squeezed, append_assoc]
    rw [front.squeeze_text_append (spelling.not_isIndent_head?_append word _),
      squeeze_append (spelling.not_isIndent word), back.squeeze_text_append starts]

theorem squeeze_cellsText_append (spelling : IsSpelling spell) (cells : List (Cell α))
    (starts : ∀ c ∈ rest.head?, isIndent c = false) :
    squeeze (cellsText spell cells ++ rest) =
      cellsText spell (cells.map Cell.squeezed) ++ squeeze rest := by
  match cells with
  | [] => rfl
  | [cell] =>
    rw [cellsText_singleton, map_singleton, cellsText_singleton]
    exact cell.squeeze_text_append spelling starts
  | cell :: next :: cells =>
    have later := squeeze_cellsText_append spelling (next :: cells) starts
    rw [map_cons] at later
    rw [cellsText_cons_cons, append_assoc, cons_append,
      cell.squeeze_text_append spelling (by simp [isIndent]), squeeze_cons (by decide), later,
      map_cons, map_cons, cellsText_cons_cons, append_assoc, cons_append]

namespace SpacedOutputs

variable {spell : Identifier → Text}

section

variable (spelling : IsSpelling spell)
include spelling

private theorem squeeze_othersText_append (others : List (Separator × Identifier)) (rest : Text) :
    squeeze (othersText spell others ++ rest) =
      othersText spell (others.map fun other => (Separator.blank, other.2)) ++ squeeze rest := by
  induction others with
  | nil => rfl
  | cons other others ih =>
    simp only [othersText, flatMap_cons, map_cons, append_assoc] at ih ⊢
    rw [other.1.toGap.squeeze_text_append (spelling.not_isIndent_head?_append other.2 _),
      squeeze_append (spelling.not_isIndent other.2), ih, Gap.squeezed, if_neg other.1.notEmpty]
    rfl

private theorem squeeze_inner_append (outputs : SpacedOutputs)
    (starts : ∀ c ∈ rest.head?, isIndent c = false) :
    squeeze (outputs.inner spell ++ rest) = outputs.squeezed.inner spell ++ squeeze rest := by
  cases outputs with
  | single word => exact squeeze_append (spelling.not_isIndent word)
  | commas cells => exact squeeze_cellsText_append spelling cells starts
  | gaps front first others back =>
    simp only [inner, squeezed, append_assoc]
    rw [front.squeeze_text_append (spelling.not_isIndent_head?_append first _),
      squeeze_append (spelling.not_isIndent first), squeeze_othersText_append spelling,
      back.squeeze_text_append starts]

/-- A line goes on with a gap behind a bracket or behind a single word. -/
theorem squeeze_text_append (outputs : SpacedOutputs) (rest : Text) :
    squeeze (outputs.text spell ++ rest) = outputs.squeezed.text spell ++ squeeze rest := by
  rw [text, text, isBracketed_squeezed]
  split
  · rw [cons_append, append_assoc, squeeze_cons (by decide),
      outputs.squeeze_inner_append spelling (by simp [isIndent]), singleton_append,
      squeeze_cons (by decide), cons_append, append_assoc]
    rfl
  · cases outputs with
    | single word => exact squeeze_append (spelling.not_isIndent word)
    | commas cells => simp [isBracketed] at *
    | gaps front first others back => simp [isBracketed] at *

theorem head?_text_append (outputs : SpacedOutputs) (rest : Text) :
    ∀ c ∈ (outputs.text spell ++ rest).head?, isIndent c = false := by
  rw [text]
  split
  · simp [isIndent]
  · cases outputs with
    | single word => exact spelling.not_isIndent_head?_append word rest
    | commas cells => simp [isBracketed] at *
    | gaps front first others back => simp [isBracketed] at *

end

end SpacedOutputs

theorem Assignment.squeeze_text_append {spell : Identifier → Text} (spelling : IsSpelling spell)
    (assignment : Assignment) (starts : ∀ c ∈ rest.head?, isIndent c = false) :
    squeeze (assignment.text spell ++ rest) = assignment.squeezed.text spell ++ squeeze rest := by
  simp only [text, squeezed, append_assoc, cons_append]
  rw [assignment.outputs.squeeze_text_append spelling,
    assignment.before.squeeze_text_append (by simp [isIndent]), squeeze_cons (by decide),
    assignment.after.squeeze_text_append starts]

theorem SpacedCall.squeeze_text_append (call : SpacedCall) (rest : Text) :
    squeeze (call.text ++ rest) = call.squeezed.text ++ squeeze rest := by
  simp only [text, squeezed, append_assoc, cons_append, nil_append]
  rw [call.gap.squeeze_text_append (by simp [isIndent]), squeeze_cons (by decide),
    squeeze_cellsText_append isSpelling_argument _ (by simp [isIndent]), squeeze_cons (by decide)]

namespace SpacedSignature

variable (signature : SpacedSignature)

theorem squeeze_callText_append :
    squeeze (signature.callText ++ signature.ending.text) =
      signature.squeezed.callText ++ signature.squeezed.ending.text := by
  have ending : squeeze signature.ending.text = signature.squeezed.ending.text := by
    have squeezed := @Gap.squeeze_text_append signature.ending [] (by simp)
    rwa [append_nil, show squeeze [] = [] from rfl, append_nil] at squeezed
  rw [callText, callText, call_squeezed]
  cases signature.call with
  | none => exact ending
  | some call => exact (call.squeeze_text_append _).trans (congrArg _ ending)

private theorem squeeze_name_append (rest : Text) :
    squeeze (signature.name.text ++ rest) = signature.name.text ++ squeeze rest :=
  squeeze_append (isSpelling_identifier.not_isIndent signature.name)

theorem squeeze_text : squeeze signature.text = signature.squeezed.text := by
  have keyword : ∀ c ∈ ("function" : Text), isIndent c = false := by simp [isIndent]
  have atName := isSpelling_identifier.not_isIndent_head?_append signature.name
    (signature.callText ++ signature.ending.text)
  rw [text, text, written, written, putMark, squeeze_append keyword]
  simp only [assignmentText, assignment_squeezed, spelled_none, name_squeezed]
  cases signature.assignment with
  | none =>
    simp only [nil_append, Option.map_none]
    rw [signature.keywordGap.squeeze_text_append atName, squeeze_name_append,
      squeeze_callText_append]
    rfl
  | some assignment =>
    have atOutputs : ∀ c ∈ (assignment.text Identifier.text ++ (signature.name.text ++
        (signature.callText ++ signature.ending.text))).head?, isIndent c = false := by
      rw [Assignment.text, append_assoc]
      exact assignment.outputs.head?_text_append isSpelling_identifier _
    simp only [Option.map_some]
    rw [signature.keywordGap.squeeze_text_append atOutputs,
      assignment.squeeze_text_append isSpelling_identifier atName, squeeze_name_append,
      squeeze_callText_append]
    rfl

end SpacedSignature

end

end MatlabDocs
