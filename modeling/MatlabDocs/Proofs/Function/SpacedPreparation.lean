import MatlabDocs.Proofs.Function.MarkedWords

/-!
# Preparing signatures with any blanks

A signature line is prepared as it stands, but for the parentheses that are put behind the words
in which a name occurs.  Which name this is, and what becomes of the code below the line, depends
on the words of the line and on that code, never on the gaps between the words.
-/

namespace MatlabDocs

open List

section

def firstVisible (text : Text) : Option Char :=
  text.find? fun c => !isBlank c

theorem firstVisible_append (front rest : Text) :
    firstVisible (front ++ rest) = (firstVisible front).or (firstVisible rest) :=
  find?_append

variable {c : Char} (text : Text)

theorem firstVisible_cons_of_isBlank (blank : isBlank c) (rest : Text) :
    firstVisible (c :: rest) = firstVisible rest := by
  rw [firstVisible, find?_cons_of_neg (by simp [blank])]
  rfl

theorem firstVisible_eq_none {text : Text} (blank : ∀ c ∈ text, isBlank c) :
    firstVisible text = none := by
  rw [firstVisible, find?_eq_none]
  intro c member
  simp [blank c member]

theorem head?_dropWhile_isBlank : (text.dropWhile isBlank).head? = firstVisible text :=
  head?_dropWhile isBlank text

private theorem not_inRanges_of_apart {first second : List (Nat × Nat)}
    (apart : first.all fun range => second.all fun other =>
      decide (range.2 < other.1) || decide (other.2 < range.1))
    (inFirst : inRanges first c) : inRanges second c = false := by
  obtain ⟨range, inRanges, bounds⟩ := any_eq_true.mp inFirst
  have others := all_eq_true.mp (all_eq_true.mp apart range inRanges)
  rw [MatlabDocs.inRanges, any_eq_false]
  intro other member
  have separate := others other member
  simp only [Bool.or_eq_true, Bool.and_eq_true, decide_eq_true_eq] at separate bounds ⊢
  omega

theorem not_isBlank_of_isWord (word : isWord c) : isBlank c = false := by
  rw [isWord, Bool.or_eq_true] at word
  rcases word with ascii | other
  · exact not_isBlank_of_isAsciiWord ascii
  · exact not_inRanges_of_apart (by decide +kernel) (Bool.and_eq_true_iff.mp other).2

variable (lineStart : Bool) (mark : Option Mark)

theorem firstVisible_putMark (text : Text) :
    firstVisible (putMark mark text) = firstVisible text := by
  cases mark with
  | none => rfl
  | some mark =>
    exact (putBehind_putMark mark text).find?_eq
      (fun c word => by simp [not_isBlank_of_isWord word]) mark.name_ne_nil mark.isWord_of_mem

theorem firstVisible_parenthesizeFrom (text : Text) :
    firstVisible (parenthesizeFrom lineStart text) = firstVisible text :=
  find?_parenthesizeFrom (fun c word => by simp [not_isBlank_of_isWord word]) lineStart text

theorem firstVisible_unixNewlines : firstVisible (unixNewlines text) = firstVisible text := by
  fun_induction unixNewlines text with
  | case1 => rfl
  | case2 rest ih =>
    rw [firstVisible_cons_of_isBlank (by decide), firstVisible_cons_of_isBlank (by decide),
      firstVisible_cons_of_isBlank (by decide), ih]
  | case3 c rest _ ih =>
    split
    · rename_i isReturn
      rw [isReturn, firstVisible_cons_of_isBlank (by decide),
        firstVisible_cons_of_isBlank (by decide), ih]
    · rw [← singleton_append, ← @singleton_append _ c rest, firstVisible_append,
        firstVisible_append, ih]

theorem firstVisible_trimRight :
    firstVisible (Text.trimRight (· == '\n') text) = firstVisible text := by
  obtain ⟨back, split, lineFeeds⟩ := Text.exists_trimRight_append (· == '\n') text
  have blank : ∀ c ∈ back, isBlank c := by
    intro c member
    obtain rfl : c = '\n' := by simpa using lineFeeds c member
    decide
  calc
    firstVisible (Text.trimRight (· == '\n') text) =
        firstVisible (Text.trimRight (· == '\n') text ++ back) := by
      rw [firstVisible_append, firstVisible_eq_none blank, Option.or_none]
    _ = firstVisible text := by rw [← split]

/-- Two texts start alike, also behind their blanks. -/
structure StartAlike (first second : Text) : Prop where
  head? : first.head? = second.head?
  firstVisible : firstVisible first = firstVisible second

theorem StartAlike.append {first second other more : Text} (alike : StartAlike first second)
    (alsoAlike : StartAlike other more) : StartAlike (first ++ other) (second ++ more) where
  head? := by rw [List.head?_append, List.head?_append, alike.head?, alsoAlike.head?]
  firstVisible := by
    rw [firstVisible_append, firstVisible_append, alike.firstVisible, alsoAlike.firstVisible]

theorem startAlike_putMark (text : Text) : StartAlike (putMark mark text) text :=
  ⟨head?_putMark mark text, firstVisible_putMark mark text⟩

theorem startAlike_parenthesizeFrom (text : Text) :
    StartAlike (parenthesizeFrom lineStart text) text where
  head? := head?_parenthesizeFrom lineStart text
  firstVisible := firstVisible_parenthesizeFrom lineStart text

def EndsLine (text : Text) : Prop :=
  ∀ c ∈ text.head?, c = '\n'

theorem EndsLine.of_append {front rest : Text} (endsLine : EndsLine (front ++ rest)) :
    EndsLine front := by
  cases front with
  | nil => simp [EndsLine]
  | cons c front => exact endsLine

/-- The code below a line becomes plain, whatever stands in the line. -/
theorem exists_normalizeCode_append {below : Text} (endsLine : EndsLine below) :
    ∃ rest, firstVisible rest = firstVisible below ∧
      ∀ first line, first ≠ Char.ofNat 0xFEFF → '\r' ∉ first :: line → '\n' ∉ first :: line →
        normalizeCode (first :: line ++ below) = first :: line ++ '\n' :: rest := by
  obtain ⟨rest, isRest⟩ : ∃ rest,
      Text.trimRight (· == '\n') (unixNewlines below) ++ ['\n'] = '\n' :: rest := by
    cases below with
    | nil => exact ⟨[], rfl⟩
    | cons c tail =>
      obtain rfl : c = '\n' := endsLine c rfl
      obtain ⟨rest, isRest, _⟩ := exists_trimRight_lineFeed (unixNewlines tail)
      rw [unixNewlines_cons (by decide)]
      exact ⟨rest, isRest⟩
  have visible : firstVisible rest = firstVisible below := by
    rw [← @firstVisible_cons_of_isBlank '\n' (by decide), ← isRest, firstVisible_append,
      firstVisible_trimRight, firstVisible_unixNewlines]
    exact Option.or_none
  refine ⟨rest, visible, fun first line noMark noReturn oneLine => ?_⟩
  have notLineFeed : first ≠ '\n' := fun same => oneLine (by simp [same])
  have kept : ∀ c ∈ (first :: line).getLast?, (c == '\n') = false := by
    intro c member
    simpa using fun same : c = '\n' => oneLine (same ▸ mem_of_getLast? member)
  rw [normalizeCode_append noMark notLineFeed noReturn kept, isRest]

end

def isSpacedCharacter (c : Char) : Bool :=
  isSpelledCharacter c || isIndent c || c == ',' || c == '[' || c == ']' || c == '='

theorem isSpacedCharacter_of_isIndent {c : Char} (indent : isIndent c) : isSpacedCharacter c := by
  simp [isSpacedCharacter, indent]

theorem isSpacedCharacter_of_mem {α : Type} {spell : α → Text} (spelling : IsSpelling spell)
    (word : α) : ∀ c ∈ spell word, isSpacedCharacter c := by
  intro c member
  simp [isSpacedCharacter, spelling.isSpelled word c member]

theorem Gap.isSpacedCharacter_of_mem (gap : Gap) : ∀ c ∈ gap.text, isSpacedCharacter c :=
  fun c member => isSpacedCharacter_of_isIndent (gap.isIndent_of_mem c member)

theorem Assignment.isSpacedCharacter_of_mem {spell : Identifier → Text}
    (spelling : IsSpelling spell) (assignment : Assignment) :
    ∀ c ∈ assignment.text spell, isSpacedCharacter c := by
  have inner := assignment.outputs.forall_mem_inner
    (MatlabDocs.isSpacedCharacter_of_mem spelling)
    (fun c => isSpacedCharacter_of_isIndent) (by decide)
  refine forall_mem_append.mpr ⟨?_, forall_mem_append.mpr
    ⟨assignment.before.isSpacedCharacter_of_mem, forall_mem_cons.mpr
      ⟨by decide, assignment.after.isSpacedCharacter_of_mem⟩⟩⟩
  rw [SpacedOutputs.text]
  split
  · exact forall_mem_cons.mpr ⟨by decide, forall_mem_append.mpr
      ⟨inner, forall_mem_singleton.mpr (by decide)⟩⟩
  · exact inner

theorem SpacedCall.isSpacedCharacter_of_mem (call : SpacedCall) :
    ∀ c ∈ call.text, isSpacedCharacter c := by
  have inner := forall_mem_cellsText
    (MatlabDocs.isSpacedCharacter_of_mem isSpelling_argument)
    (fun c => isSpacedCharacter_of_isIndent) (by decide) call.arguments
  exact forall_mem_append.mpr ⟨call.gap.isSpacedCharacter_of_mem, forall_mem_cons.mpr
    ⟨by decide, forall_mem_append.mpr ⟨inner, forall_mem_singleton.mpr (by decide)⟩⟩⟩

namespace SpacedSignature

variable (signature : SpacedSignature) (mark : Option Mark)

theorem isSpacedCharacter_of_mem_written : ∀ c ∈ signature.written mark, isSpacedCharacter c := by
  have keyword : ∀ c ∈ putMark mark "function", isSpacedCharacter c :=
    MatlabDocs.isSpacedCharacter_of_mem (isSpelling_spelled mark) ⟨"function", rfl⟩
  have assignment : ∀ c ∈ signature.assignmentText mark, isSpacedCharacter c := by
    rw [assignmentText]
    cases signature.assignment with
    | none => simp
    | some found => exact found.isSpacedCharacter_of_mem (isSpelling_spelled mark)
  have call : ∀ c ∈ signature.callText, isSpacedCharacter c := by
    rw [callText]
    cases signature.call with
    | none => simp
    | some found => exact found.isSpacedCharacter_of_mem
  exact forall_mem_append.mpr ⟨keyword, forall_mem_append.mpr
    ⟨signature.keywordGap.isSpacedCharacter_of_mem, forall_mem_append.mpr
      ⟨assignment, forall_mem_append.mpr
        ⟨MatlabDocs.isSpacedCharacter_of_mem (isSpelling_spelled mark) signature.name,
          forall_mem_append.mpr ⟨call, signature.ending.isSpacedCharacter_of_mem⟩⟩⟩⟩⟩

end SpacedSignature

section

theorem addParentheses_of_eq_none {line rest : Text} (notEmpty : line ≠ []) (oneLine : '\n' ∉ line)
    (noSignature : assignedSignature? (line ++ rest) = none) :
    addParentheses (line ++ rest) = line ++ parenthesizeFrom false rest := by
  obtain ⟨c, others, rfl⟩ := exists_cons_of_ne_nil notEmpty
  obtain ⟨notLineFeed, othersInLine⟩ := ne_and_not_mem_of_not_mem_cons oneLine
  have inLine : (c == '\n') = false := by simpa using notLineFeed.symm
  rw [cons_append] at noSignature
  rw [addParentheses, cons_append, parenthesizeFrom_cons fun _ => noSignature, inLine,
    parenthesizeFrom_append othersInLine, cons_append]

namespace WrittenSignature

variable (signature : WrittenSignature)

/-- The name is marked if there is neither an argument nor a pair of parentheses behind it. -/
def mark : Option Mark :=
  if signature.call.arguments = [] ∧ (signature.call.opening = [] ∨ signature.call.closing = [])
  then some ⟨signature.name, signature.name_ne_nil, signature.isWord_name⟩
  else none

theorem putMark_call : putMark signature.mark signature.call.text = signature.call.text := by
  rw [mark]
  split
  · rename_i unlisted
    have plain := putMark_plain_append
      (some ⟨signature.name, signature.name_ne_nil, signature.isWord_name⟩)
      (signature.not_isWord_call unlisted.1) []
    rwa [append_nil, putMark_nil, append_nil] at plain
  · rfl

theorem addParentheses_text_append {rest : Text} (ends : signature.EndsAt rest) :
    addParentheses (signature.text ++ rest) = putMark signature.mark signature.text ++
      parenthesizeFrom (signature.text.getLast? == some '\n') rest := by
  have shown := signature.shownAs_parenthesized rest
  rw [addParentheses, parenthesizeFrom_of_signature signature.text_ne_nil
    (signature.assignedSignature?_text_append ends)]
  congr 1
  rw [mark]
  split
  · rename_i marked
    exact shown.replaced marked.1 marked.2
  · rename_i unmarked
    by_cases unlisted : signature.call.arguments = []
    · have paired := not_or.mp fun unpaired => unmarked ⟨unlisted, unpaired⟩
      exact shown.paired paired.1 paired.2
    · exact shown.listed unlisted

end WrittenSignature

/-- What is found behind an equals sign is a part of a signature. -/
theorem exists_writtenSignature_of_namedSignature? {after : Text} {found : AssignedSignature}
    (isNamed : namedSignature? after = some found) :
    ∃ signature : WrittenSignature, signature.EndsAt found.rest ∧
      after = signature.nameGap ++ (signature.name ++ (signature.call.text ++ found.rest)) := by
  have noOutputs : IsOutputs [] :=
    ⟨[], [], [], by simp, .inl rfl, ⟨[], [], [], by simp, .inl rfl, by simp, rfl⟩, rfl⟩
  have isBehind : behindEquals? (("function" : Text) ++ '=' :: after) = some after :=
    behindEquals?_eq_some_iff.mpr ⟨[], [], by simp, noOutputs, rfl⟩
  have isFound : assignedSignature? (("function" : Text) ++ '=' :: after) = some found := by
    rw [assignedSignature?_eq_bind, isBehind, Option.bind_some, isNamed]
  obtain ⟨signature, split, _, _, ends⟩ := exists_writtenSignature_of_assignedSignature? isFound
  have sameBehind := behindEquals?_eq_some_iff.mpr ⟨_, _, signature.isIndent_indentation,
    signature.isOutputs, signature.text_append found.rest⟩
  rw [← split, isBehind] at sameBehind
  exact ⟨signature, ends, Option.some.inj sameBehind⟩

theorem IsListEnd.append {names text : Text} (listed : ∀ c ∈ names, isListed c)
    (listEnd : IsListEnd text) : IsListEnd (names ++ text) := by
  obtain ⟨others, closing, gap, othersListed, isClosing, isGap_gap, rfl⟩ := listEnd
  exact ⟨names ++ others, closing, gap, forall_mem_append.mpr ⟨listed, othersListed⟩,
    isClosing, isGap_gap, (append_assoc _ _ _).symm⟩

theorem isGap_of_isIndent {c : Char} (indent : isIndent c) : isGap c := by
  simp [isGap, indent]

theorem Gap.isGap_of_mem (gap : Gap) : ∀ c ∈ gap.text, isGap c :=
  fun c member => isGap_of_isIndent (gap.isIndent_of_mem c member)

variable (identifier : Identifier)

theorem Identifier.isListed_of_mem : ∀ c ∈ identifier.text, isListed c := by
  intro c member
  simp [isListed, identifier.isWord_of_mem c member]

theorem Identifier.dropWhile_isGap (rest : Text) :
    (identifier.text ++ rest).dropWhile isGap = identifier.text ++ rest := by
  obtain ⟨first, others, shape⟩ := exists_cons_of_ne_nil identifier.text_ne_nil
  have word := identifier.isWord_of_mem first (by simp [shape])
  rw [shape, cons_append, dropWhile_cons_of_neg (by simp [not_isGap_of_isWord word])]

theorem Identifier.skipOne_append {sign : Char} (notWord : isAsciiWord sign = false) (rest : Text) :
    skipOne sign (identifier.text ++ rest) = identifier.text ++ rest := by
  obtain ⟨first, others, shape⟩ := exists_cons_of_ne_nil identifier.text_ne_nil
  have word := identifier.isAsciiWord_of_mem first (by simp [shape])
  rw [shape, cons_append, skipOne_cons_of_ne (ne_of_test word notWord)]

theorem Assignment.isOutputs (assignment : Assignment) (gap : Gap) :
    IsOutputs (gap.text ++ (assignment.outputs.text Identifier.text ++
      assignment.before.text)) := by
  have listed := assignment.outputs.forall_mem_inner Identifier.isListed_of_mem
    (fun c indent => isListed_of_isGap (isGap_of_isIndent indent)) (by decide)
  rw [SpacedOutputs.text]
  split
  · refine ⟨gap.text, ['['], _, gap.isGap_of_mem, .inr rfl,
      ⟨_, [']'], _, listed, .inr rfl, assignment.before.isGap_of_mem, rfl⟩, ?_⟩
    simp
  · exact ⟨gap.text, [], _, gap.isGap_of_mem, .inl rfl,
      ⟨_, [], _, listed, .inl rfl, assignment.before.isGap_of_mem, rfl⟩, rfl⟩

namespace SpacedCall

variable (call : SpacedCall)

def inner : Text :=
  cellsText Argument.text call.arguments

theorem isListed_or_of_mem_inner : ∀ c ∈ call.inner, isListed c ∨ c = '~' := by
  refine forall_mem_cellsText ?_
    (fun c indent => .inl (isListed_of_isGap (isGap_of_isIndent indent)))
    (.inl (by decide)) call.arguments
  intro argument
  cases argument with
  | ignored => simp [Argument.text]
  | named name => exact fun c member => .inl (name.isListed_of_mem c member)

/-- The arguments that are found: they end where one is ignored. -/
def listed : WrittenCall where
  gap := call.gap.text
  opening := ['(']
  arguments := call.inner.takeWhile isListed
  closing := if call.inner.dropWhile isListed = [] then [')'] else []
  isGap_gap := call.gap.isGap_of_mem
  isOptional_opening := .inr rfl
  isListed_arguments := fun _ => mem_takeWhile_imp
  isOptional_closing := by
    split
    · exact .inr rfl
    · exact .inl rfl

/-- What is left of the call behind the arguments that are found. -/
def unlisted : Text :=
  if call.inner.dropWhile isListed = [] then [] else call.inner.dropWhile isListed ++ [')']

theorem text_eq : call.text = call.listed.text ++ call.unlisted := by
  have split := @takeWhile_append_dropWhile _ isListed call.inner
  rw [text, ← inner, WrittenCall.text, listed, unlisted]
  split
  · rename_i nothing
    rw [nothing, append_nil] at split
    simp only [split]
    simp
  · have whole := congrArg (· ++ [')']) split
    simp only [append_assoc] at whole
    simp only [← whole, append_nil]
    simp

theorem listed_endsAt (rest : Text) : call.listed.EndsAt (call.unlisted ++ rest) where
  gap := by simp [listed, isGap, isIndent]
  opening := fun absent => absurd absent (cons_ne_nil _ _)
  arguments := by
    rw [listed, unlisted]
    split
    · simp [isListed, isGap, isIndent]
      decide
    · rename_i more
      rw [nil_append, append_assoc]
      obtain ⟨c, others, shape⟩ := exists_cons_of_ne_nil more
      have stops := head?_dropWhile_eq_false isListed call.inner
      rw [shape] at stops ⊢
      simpa using stops
  closing := by
    rw [listed, unlisted]
    split
    · exact fun absent => absurd absent (cons_ne_nil _ _)
    · rename_i more
      intro _ starts
      obtain ⟨c, others, shape⟩ := exists_cons_of_ne_nil more
      obtain rfl : c = ')' := by simpa [shape] using starts
      have member : ')' ∈ call.inner :=
        (dropWhile_suffix isListed).subset (by simp [shape])
      rcases call.isListed_or_of_mem_inner ')' member with isListed_sign | isTilde
      · exact absurd isListed_sign (by decide)
      · exact absurd isTilde (by decide)

/-- No argument is found if the first one is ignored and nothing stands in front of it. -/
theorem listed_eq_nil_iff :
    call.listed.arguments = [] ∧ (call.listed.opening = [] ∨ call.listed.closing = []) ↔
      call.inner.head? = some '~' := by
  have members := call.isListed_or_of_mem_inner
  simp only [listed]
  generalize call.inner = inner at members
  cases inner with
  | nil => simp
  | cons c rest =>
    by_cases isListed_c : isListed c
    · have different : c ≠ '~' := ne_of_test isListed_c (by decide)
      simp [isListed_c, different]
    · obtain rfl : c = '~' := (members c mem_cons_self).resolve_left isListed_c
      simp [isListed_c]

theorem inner_squeezed : call.squeezed.inner = squeeze call.inner := by
  have squeezed := @squeeze_cellsText_append _ _ [] isSpelling_argument call.arguments (by simp)
  rw [append_nil, show squeeze [] = [] from rfl, append_nil] at squeezed
  exact squeezed.symm

end SpacedCall

theorem head?_squeeze_eq_some_iff {sign : Char} (notIndent : isIndent sign = false) (text : Text) :
    (squeeze text).head? = some sign ↔ text.head? = some sign := by
  cases text with
  | nil => rfl
  | cons c text =>
    by_cases indent : isIndent c
    · have different : c ≠ sign := ne_of_test indent notIndent
      have notBlank : ' ' ≠ sign := ne_of_test (show isIndent ' ' by decide) notIndent
      simp [squeeze, squeezeFrom, indent, different, notBlank]
    · simp [squeeze, squeezeFrom, indent]

namespace SpacedSignature

variable (signature : SpacedSignature) {below : Text}

/-- A signature with the given outputs and whatever call follows its name. -/
def assigned (assignment : Assignment) (call : WrittenCall) : WrittenSignature where
  indentation := []
  outputs := signature.keywordGap.text ++
    (assignment.outputs.text Identifier.text ++ assignment.before.text)
  nameGap := assignment.after.text
  name := signature.name.text
  call
  isIndent_indentation := forall_mem_empty isIndent
  isOutputs := assignment.isOutputs signature.keywordGap
  isGap_nameGap := assignment.after.isGap_of_mem
  name_ne_nil := signature.name.text_ne_nil
  isWord_name := signature.name.isWord_of_mem

theorem text_assigned {assignment : Assignment} (isFound : signature.assignment = some assignment)
    (call : WrittenCall) : (signature.assigned assignment call).text =
      signature.front none ++ (signature.name.text ++ call.text) := by
  rw [front, assignmentText_eq none signature isFound, Assignment.text, WrittenSignature.text,
    WrittenSignature.head, spelled_none]
  simp [assigned, putMark]

theorem text_eq : signature.text = signature.front none ++
    (signature.name.text ++ (signature.callText ++ signature.ending.text)) := by
  rw [text, written_eq, spelled_none]

theorem not_mem_text {sign : Char} (other : isSpacedCharacter sign = false) :
    sign ∉ signature.text :=
  fun member => ne_of_test (signature.isSpacedCharacter_of_mem_written none sign member) other rfl

private theorem getLast?_text_append (behind : Text) :
    ((signature.text ++ behind).getLast? == some '\n') = (behind.getLast? == some '\n') := by
  rw [getLast?_append]
  cases last : behind.getLast? with
  | some c => rfl
  | none =>
    rw [Option.none_or, Bool.eq_iff_iff]
    simp only [beq_iff_eq, reduceCtorEq, iff_false]
    exact fun ends => signature.not_mem_text (by decide) (mem_of_getLast? ends)

/-- Where a signature without a call goes on below its line, it is marked there too. -/
theorem addParentheses_uncalled (uncalled : signature.call = none) (written : WrittenSignature)
    {behind rest : Text} (isText : written.text = signature.text ++ behind)
    (ends : written.EndsAt rest) (endsLine : EndsLine behind) :
    addParentheses (signature.text ++ (behind ++ rest)) = signature.written written.mark ++
      (putMark written.mark behind ++ parenthesizeFrom (behind.getLast? == some '\n') rest) := by
  have notWord : EndsWord behind := by
    intro c member
    rw [endsLine c member]
    decide
  have plain := signature.ending.not_isWord_of_mem
  have marked : putMark written.mark written.text =
      signature.written written.mark ++ putMark written.mark behind := by
    rw [isText, text_eq, written_eq, signature.callText_eq_nil uncalled, nil_append,
      append_assoc, append_assoc,
      signature.putMark_front_append written.mark (head?_append_eq_false plain notWord),
      putMark_plain_append written.mark plain]
    simp
  have lastSign := signature.getLast?_text_append behind
  rw [← isText] at lastSign
  rw [← append_assoc, ← isText, written.addParentheses_text_append ends, marked, lastSign,
    append_assoc]

/-- Where a signature has outputs and no call, only its name and the code below decide. -/
theorem exists_addParentheses_uncalled (name : Identifier) (endsLine : EndsLine below) :
    ∃ (mark : Option Mark) (rest : Text),
      (∀ found, mark = some found → found.name = name.text) ∧ StartAlike rest below ∧
      ∀ signature : SpacedSignature, signature.assignment ≠ none → signature.call = none →
        signature.name = name →
        addParentheses (signature.text ++ below) = signature.written mark ++ rest := by
  obtain ⟨call, rest, split, ends⟩ := WrittenCall.exists_text_append below
  let mark : Option Mark :=
    if call.arguments = [] ∧ (call.opening = [] ∨ call.closing = [])
    then some ⟨name.text, name.text_ne_nil, name.isWord_of_mem⟩
    else none
  refine ⟨mark, putMark mark call.text ++
    parenthesizeFrom (call.text.getLast? == some '\n') rest, ?_, ?_, ?_⟩
  · intro found isMark
    simp only [mark] at isMark
    split at isMark
    · rw [← Option.some.inj isMark]
    · cases isMark
  · rw [split]
    exact (startAlike_putMark mark _).append (startAlike_parenthesizeFrom _ _)
  · rintro signature assigned uncalled rfl
    obtain ⟨assignment, isFound⟩ := Option.ne_none_iff_exists'.mp assigned
    let wholeCall : WrittenCall :=
      { call with
        gap := signature.ending.text ++ call.gap
        isGap_gap := forall_mem_append.mpr ⟨signature.ending.isGap_of_mem, call.isGap_gap⟩ }
    have sameCall : wholeCall.text = signature.ending.text ++ call.text := by
      simp [wholeCall, WrittenCall.text]
    have isText : (signature.assigned assignment wholeCall).text = signature.text ++ call.text := by
      rw [signature.text_assigned isFound, sameCall, text_eq, signature.callText_eq_nil uncalled]
      simp
    have lineEnds : EndsLine call.text := by
      rw [split] at endsLine
      exact endsLine.of_append
    have notWord : EndsWord (wholeCall.text ++ rest) := by
      rw [sameCall, append_assoc, ← split]
      refine head?_append_eq_false signature.ending.not_isWord_of_mem fun c member => ?_
      rw [endsLine c member]
      decide
    have wholeEnds : (signature.assigned assignment wholeCall).EndsAt rest :=
      ⟨notWord, ends.gap, ends.opening, ends.arguments, ends.closing⟩
    have added := signature.addParentheses_uncalled uncalled _ isText wholeEnds lineEnds
    rwa [← split] at added

theorem assignedSignature?_unassigned (unassigned : signature.assignment = none)
    {behind rest : Text} (listed : ∀ c ∈ behind, isListed c) :
    assignedSignature? (signature.front none ++ (signature.name.text ++ (behind ++ rest))) =
      (Text.afterStart? ['='] ((skipOne ']' (rest.dropWhile isListed)).dropWhile isGap)).bind
        namedSignature? := by
  have wholeListed : ∀ c ∈ signature.name.text ++ behind, isListed c :=
    forall_mem_append.mpr ⟨signature.name.isListed_of_mem, listed⟩
  have shape : signature.front none ++ (signature.name.text ++ (behind ++ rest)) =
      ("function" : Text) ++ (signature.keywordGap.text ++
        (signature.name.text ++ (behind ++ rest))) := by
    rw [front, signature.assignmentText_eq_nil none unassigned, append_nil, append_assoc]
    rfl
  have fromKeyword : (("function" : Text) ++ (signature.keywordGap.text ++
      (signature.name.text ++ (behind ++ rest)))).dropWhile isIndent =
      ("function" : Text) ++ (signature.keywordGap.text ++
        (signature.name.text ++ (behind ++ rest))) :=
    dropWhile_cons_of_neg (by decide)
  rw [assignedSignature?_eq_bind, behindEquals?, shape, fromKeyword, Text.afterStart?_append,
    Option.bind_some, dropWhile_append_of_pos signature.keywordGap.isGap_of_mem,
    signature.name.dropWhile_isGap, signature.name.skipOne_append (by decide), ← append_assoc,
    dropWhile_append_of_pos wholeListed]

theorem addParentheses_unassigned_call (unassigned : signature.assignment = none)
    {call : SpacedCall} (called : signature.call = some call) (below : Text) :
    addParentheses (signature.text ++ below) = signature.text ++ parenthesizeFrom false below := by
  have listed : ∀ c ∈ call.gap.text, isListed c :=
    fun c member => isListed_of_isGap (call.gap.isGap_of_mem c member)
  have notEmpty : signature.text ≠ [] := cons_ne_nil _ _
  refine addParentheses_of_eq_none notEmpty (signature.not_mem_text (by decide)) ?_
  have shape : signature.text ++ below = signature.front none ++ (signature.name.text ++
      (call.gap.text ++ '(' :: (cellsText Argument.text call.arguments ++
        ')' :: (signature.ending.text ++ below)))) := by
    rw [text_eq, signature.callText_eq called, SpacedCall.text]
    simp
  rw [shape, signature.assignedSignature?_unassigned unassigned listed]
  rfl

/-- Where a line is only a name, the name and the code below decide. -/
theorem exists_addParentheses_bare (endsLine : EndsLine below) :
    ∃ (mark : Option Mark) (rest : Text), StartAlike rest below ∧
      ∀ signature : SpacedSignature, signature.assignment = none → signature.call = none →
        addParentheses (signature.text ++ below) = signature.written mark ++ rest := by
  have shape : ∀ signature : SpacedSignature, signature.call = none →
      signature.text ++ below = signature.front none ++
        (signature.name.text ++ (signature.ending.text ++ below)) := by
    intro signature uncalled
    rw [text_eq, signature.callText_eq_nil uncalled]
    simp
  have listed : ∀ gap : Gap, ∀ c ∈ gap.text, isListed c :=
    fun gap c member => isListed_of_isGap (gap.isGap_of_mem c member)
  cases isFound : (Text.afterStart? ['='] ((skipOne ']' (below.dropWhile isListed)).dropWhile
      isGap)).bind namedSignature? with
  | none =>
    refine ⟨none, parenthesizeFrom false below, startAlike_parenthesizeFrom _ _, ?_⟩
    intro signature unassigned uncalled
    refine addParentheses_of_eq_none (cons_ne_nil _ _) (signature.not_mem_text (by decide)) ?_
    rw [shape signature uncalled,
      signature.assignedSignature?_unassigned unassigned (listed signature.ending), isFound]
  | some found =>
    obtain ⟨after, isEquals, isNamed⟩ := Option.bind_eq_some_iff.mp isFound
    obtain ⟨front, listEnd, split⟩ := exists_isListEnd_append below
    obtain ⟨later, ends, isAfter⟩ := exists_writtenSignature_of_namedSignature? isNamed
    let behind := front ++ '=' :: (later.nameGap ++ (later.name ++ later.call.text))
    have isBelow : below = behind ++ found.rest := by
      rw [Text.eq_append_of_afterStart? isEquals, isAfter] at split
      rw [split]
      simp [behind]
    refine ⟨later.mark, putMark later.mark behind ++
      parenthesizeFrom (behind.getLast? == some '\n') found.rest, ?_, ?_⟩
    · rw [isBelow]
      exact (startAlike_putMark _ _).append (startAlike_parenthesizeFrom _ _)
    · intro signature unassigned uncalled
      -- The name and the gap behind it are taken for outputs.
      have isOutputs : IsOutputs (signature.keywordGap.text ++
          (signature.name.text ++ (signature.ending.text ++ front))) :=
        ⟨_, [], _, signature.keywordGap.isGap_of_mem, .inl rfl,
          IsListEnd.append signature.name.isListed_of_mem
            (IsListEnd.append (listed signature.ending) listEnd), rfl⟩
      let whole : WrittenSignature :=
        { later with
          indentation := []
          outputs := _
          isIndent_indentation := by simp
          isOutputs }
      have isText : whole.text = signature.text ++ behind := by
        rw [text_eq, signature.callText_eq_nil uncalled, SpacedSignature.front,
          signature.assignmentText_eq_nil none unassigned, WrittenSignature.text,
          WrittenSignature.head]
        simp [whole, behind, putMark]
      have lineEnds : EndsLine behind := by
        rw [isBelow] at endsLine
        exact endsLine.of_append
      have added := signature.addParentheses_uncalled uncalled whole isText
        ⟨ends.name, ends.call⟩ lineEnds
      rwa [← isBelow] at added

/-- The name is marked if the first argument is ignored and stands at the parenthesis. -/
def callMark (call : SpacedCall) : Option Mark :=
  if call.inner.head? = some '~'
  then some ⟨signature.name.text, signature.name.text_ne_nil, signature.name.isWord_of_mem⟩
  else none

theorem callMark_squeezed (call : SpacedCall) :
    signature.squeezed.callMark call.squeezed = signature.callMark call := by
  have sameHead : call.squeezed.inner.head? = some '~' ↔ call.inner.head? = some '~' := by
    rw [call.inner_squeezed]
    exact head?_squeeze_eq_some_iff (by decide) call.inner
  simp [callMark, sameHead, name_squeezed]

theorem addParentheses_assigned_call {assignment : Assignment}
    (isFound : signature.assignment = some assignment) {call : SpacedCall}
    (called : signature.call = some call) (below : Text) :
    addParentheses (signature.text ++ below) =
      signature.written (signature.callMark call) ++ parenthesizeFrom false below := by
  let written := signature.assigned assignment call.listed
  have isMark : written.mark = signature.callMark call := by
    simp [written, WrittenSignature.mark, assigned, call.listed_eq_nil_iff, callMark]
  have notWord : ∀ rest, EndsWord (call.listed.text ++ rest) := by
    intro rest
    rw [WrittenCall.text_append]
    refine head?_append_eq_false call.gap.not_isWord_of_mem ?_
    simpa [SpacedCall.listed] using (by decide : isWord '(' = false)
  have ends : written.EndsAt (call.unlisted ++ (signature.ending.text ++ below)) :=
    ⟨notWord _, call.listed_endsAt _⟩
  have isLine : signature.text = written.text ++ (call.unlisted ++ signature.ending.text) := by
    rw [text_eq, signature.callText_eq called, call.text_eq, signature.text_assigned isFound]
    simp
  have oneLine : '\n' ∉ written.text ++ (call.unlisted ++ signature.ending.text) := by
    rw [← isLine]
    exact signature.not_mem_text (by decide)
  obtain ⟨inWritten, inRest⟩ := not_or.mp fun member => oneLine (mem_append.mpr member)
  have inLine : (written.text.getLast? == some '\n') = false := by
    rw [Bool.eq_false_iff]
    exact fun atEnd => inWritten (mem_of_getLast? (eq_of_beq atEnd))
  have marked : putMark written.mark written.text = signature.front written.mark ++
      (spelled written.mark signature.name ++ call.listed.text) := by
    have atName := notWord []
    rw [append_nil] at atName
    rw [signature.text_assigned isFound, signature.putMark_front_append written.mark atName]
    exact congrArg (fun text => signature.front written.mark ++
      (spelled written.mark signature.name ++ text)) written.putMark_call
  rw [isLine, append_assoc, append_assoc, written.addParentheses_text_append ends, inLine,
    marked, ← append_assoc call.unlisted, parenthesizeFrom_append inRest, isMark, written_eq,
    signature.callText_eq called, call.text_eq]
  simp

/-- What may be marked: of a line with outputs only its name, and nothing in a line with a call
unless its first argument is ignored and stands at the parenthesis. -/
structure Permits (shape : SpacedSignature) (mark : Option Mark) : Prop where
  named : ∀ found, mark = some found → shape.assignment ≠ none → found.name = shape.name.text
  called : ∀ call, shape.call = some call → call.inner.head? ≠ some '~' → mark = none

/-- Only the words of a line and the code below it decide where parentheses are put in. -/
theorem exists_addParentheses (shape : SpacedSignature) (endsLine : EndsLine below) :
    ∃ (mark : Option Mark) (rest : Text), shape.Permits mark ∧ StartAlike rest below ∧
      ∀ signature : SpacedSignature, signature.squeezed = shape →
        addParentheses (signature.text ++ below) = signature.written mark ++ rest := by
  have kept : StartAlike (parenthesizeFrom false below) below := startAlike_parenthesizeFrom _ _
  cases assignment : shape.assignment with
  | none =>
    cases call : shape.call with
    | none =>
      obtain ⟨mark, rest, alike, added⟩ := exists_addParentheses_bare endsLine
      have permits : shape.Permits mark :=
        ⟨fun _ _ assigned => absurd assignment assigned, by simp [call]⟩
      refine ⟨mark, rest, permits, alike, ?_⟩
      rintro signature rfl
      exact added signature (Option.map_eq_none_iff.mp assignment) (Option.map_eq_none_iff.mp call)
    | some shapeCall =>
      refine ⟨none, _, ⟨by simp, fun _ _ _ => rfl⟩, kept, ?_⟩
      rintro signature rfl
      obtain ⟨written, isCall, _⟩ := Option.map_eq_some_iff.mp call
      exact signature.addParentheses_unassigned_call (Option.map_eq_none_iff.mp assignment)
        isCall below
  | some shapeAssignment =>
    cases call : shape.call with
    | none =>
      obtain ⟨mark, rest, named, alike, added⟩ :=
        exists_addParentheses_uncalled shape.name endsLine
      have permits : shape.Permits mark :=
        ⟨fun found isMark _ => named found isMark, by simp [call]⟩
      refine ⟨mark, rest, permits, alike, ?_⟩
      rintro signature rfl
      have assigned : signature.assignment ≠ none := by
        intro unassigned
        rw [assignment_squeezed, unassigned] at assignment
        cases assignment
      exact added signature assigned (Option.map_eq_none_iff.mp call) rfl
    | some shapeCall =>
      have permits : shape.Permits (shape.callMark shapeCall) := by
        constructor
        · intro found isMark _
          rw [callMark] at isMark
          split at isMark
          · rw [← Option.some.inj isMark]
          · cases isMark
        · intro found isFound notIgnored
          rw [call] at isFound
          obtain rfl := Option.some.inj isFound
          rw [callMark, if_neg notIgnored]
      refine ⟨shape.callMark shapeCall, _, permits, kept, ?_⟩
      rintro signature rfl
      obtain ⟨written, isWritten, _⟩ := Option.map_eq_some_iff.mp assignment
      obtain ⟨calling, isCall, rfl⟩ := Option.map_eq_some_iff.mp call
      rw [signature.callMark_squeezed]
      exact signature.addParentheses_assigned_call isWritten isCall below

end SpacedSignature

end

section

variable {below : Text}

theorem EndsLine.joinContinuedLines (endsLine : EndsLine below) :
    EndsLine (joinContinuedLines below) := by
  cases below with
  | nil => exact endsLine
  | cons c tail =>
    obtain rfl : c = '\n' := endsLine c rfl
    have joined := @joinContinuedLines_append ['\n'] (by simp [isContinuationSign]) tail
    rw [singleton_append, singleton_append] at joined
    rw [joined, EndsLine]
    simp

theorem firstVisible_joinContinuedLines {sign : Char} (plain : isContinuationSign sign = false)
    (isFirst : firstVisible below = some sign) :
    firstVisible (joinContinuedLines below) = some sign := by
  obtain ⟨isVisible, front, rest, rfl, blanks⟩ := find?_eq_some_iff_append.mp isFirst
  have blank : ∀ c ∈ front, isBlank c := by
    intro c member
    simpa using blanks c member
  have copied : ∀ c ∈ front ++ [sign], isContinuationSign c = false := by
    refine forall_mem_append.mpr ⟨fun c member => ?_, by simpa using plain⟩
    exact isContinuationSign_eq_false (blank c member) (by decide)
  rw [append_cons, joinContinuedLines_append copied, append_assoc, firstVisible_append,
    firstVisible_eq_none blank, Option.none_or, singleton_append,
    firstVisible, find?_cons_of_pos (by simpa using isVisible)]

namespace SpacedSignature

theorem joinContinuedLines_text_append (signature : SpacedSignature) (below : Text) :
    joinContinuedLines (signature.text ++ below) = signature.text ++ joinContinuedLines below := by
  refine joinContinuedLines_append (fun c member => ?_) below
  exact isContinuationSign_eq_false (signature.isSpacedCharacter_of_mem_written none c member)
    (by decide)

theorem exists_normalizeCode_written (endsLine : EndsLine below) :
    ∃ rest, firstVisible rest = firstVisible below ∧
      ∀ (indentation : Gap) (signature : SpacedSignature) (mark : Option Mark),
        normalizeCode (indentation.text ++ signature.written mark ++ below) =
          indentation.text ++ signature.written mark ++ '\n' :: rest := by
  obtain ⟨rest, visible, normalized⟩ := exists_normalizeCode_append endsLine
  refine ⟨rest, visible, fun indentation signature mark => ?_⟩
  have characters : ∀ c ∈ indentation.text ++ signature.written mark, isSpacedCharacter c :=
    forall_mem_append.mpr
      ⟨indentation.isSpacedCharacter_of_mem, signature.isSpacedCharacter_of_mem_written mark⟩
  have absent : ∀ sign, isSpacedCharacter sign = false →
      sign ∉ indentation.text ++ signature.written mark :=
    fun sign other member => ne_of_test (characters sign member) other rfl
  have notEmpty : indentation.text ++ signature.written mark ≠ [] := by
    have keyword := (isSpelling_spelled mark).ne_nil ⟨"function", rfl⟩
    exact append_ne_nil_of_right_ne_nil _ (append_ne_nil_of_left_ne_nil keyword _)
  obtain ⟨first, line, isLine⟩ := exists_cons_of_ne_nil notEmpty
  rw [isLine] at characters absent ⊢
  exact normalized first line (ne_of_test (characters first mem_cons_self) (by decide))
    (absent '\r' (by decide)) (absent '\n' (by decide))

/-- Only the words of a line and the code below it decide how a signature is prepared. -/
theorem exists_normalizeCode_prepareCode (shape : SpacedSignature) (endsLine : EndsLine below) :
    ∃ (mark : Option Mark) (rest : Text), shape.Permits mark ∧
      firstVisible rest = firstVisible (joinContinuedLines below) ∧
      ∀ signature : SpacedSignature, signature.squeezed = shape →
        normalizeCode (prepareCode (signature.text ++ below)) =
          signature.written mark ++ '\n' :: rest := by
  obtain ⟨mark, added, permits, alike, isAdded⟩ :=
    exists_addParentheses shape endsLine.joinContinuedLines
  have addedEnds : EndsLine added := by
    rw [EndsLine, alike.head?]
    exact endsLine.joinContinuedLines
  obtain ⟨rest, visible, normalized⟩ := exists_normalizeCode_written addedEnds
  refine ⟨mark, rest, permits, visible.trans alike.firstVisible, fun signature isShape => ?_⟩
  have keptHeader : dropHeader (signature.text ++ below) = signature.text ++ below :=
    dropHeader_cons _ (by decide) (by decide) (by decide)
  rw [prepareCode, keptHeader, joinContinuedLines_text_append, isAdded signature isShape]
  exact normalized .empty signature mark

end SpacedSignature

end

end MatlabDocs
