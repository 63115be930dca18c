import Mathlib.Data.List.Basic
import MatlabDocs.Proofs.Function.FirstComments
import MatlabDocs.Proofs.Function.SpacedPreparation

/-!
# Reading signatures with any blanks

What is read from a prepared signature line depends on its words, on the name that is marked in it,
and on the code below the line.  The gaps of a tidy line do not go into it.
-/

namespace MatlabDocs

open List FunctionDef SpacedOutputs CalledHead

section

variable {name text shown : Text}

theorem PutBehind.eq_or_last (notEmpty : name ≠ []) (put : PutBehind name text shown) :
    shown = text ∨ ∃ front back, shown = front ++ '(' :: ')' :: back ∧ front ≠ [] ∧
      ∀ c ∈ back, c ∈ text := by
  induction put with
  | nil => exact .inl rfl
  | copied c _ ih =>
    rcases ih with same | ⟨front, back, isShown, _, members⟩
    · exact .inl (congrArg (c :: ·) same)
    · refine .inr ⟨c :: front, back, congrArg (c :: ·) isShown, cons_ne_nil _ _, ?_⟩
      exact fun d member => mem_cons_of_mem c (members d member)
  | marked _ ih =>
    rcases ih with same | ⟨front, back, isShown, _, members⟩
    · rw [same]
      exact .inr ⟨name, _, rfl, notEmpty, fun c member => mem_append_right _ member⟩
    · refine .inr ⟨name ++ ("()" ++ front), back, ?_,
        append_ne_nil_of_left_ne_nil notEmpty _,
        fun c member => mem_append_right _ (members c member)⟩
      rw [isShown]
      simp

theorem PutBehind.eq_or_first (notEmpty : name ≠ []) (put : PutBehind name text shown) :
    shown = text ∨ ∃ front more, shown = front ++ '(' :: more ∧ front <+: text ∧ front ≠ [] := by
  induction put with
  | nil => exact .inl rfl
  | copied c _ ih =>
    rcases ih with same | ⟨front, more, isShown, starts, _⟩
    · exact .inl (congrArg (c :: ·) same)
    · exact .inr ⟨c :: front, more, congrArg (c :: ·) isShown,
        cons_prefix_cons.mpr ⟨rfl, starts⟩, cons_ne_nil _ _⟩
  | marked _ _ => exact .inr ⟨name, _, rfl, prefix_append _ _, notEmpty⟩

theorem spelled_cases (mark : Option Mark) (word : Identifier) :
    ('(' ∉ spelled mark word ∧ spelled mark word = word.text) ∨
    ('(' ∈ spelled mark word ∧ ∃ front back, spelled mark word = front ++ '(' :: ')' :: back ∧
      front ≠ [] ∧ ∀ c ∈ back, isAsciiWord c) := by
  have unmarked : '(' ∉ word.text := word.not_mem_of_not_isAsciiWord (by decide)
  cases mark with
  | none => exact .inl ⟨unmarked, rfl⟩
  | some mark =>
    rcases (putBehind_putMark mark word.text).eq_or_last mark.name_ne_nil with
      same | ⟨front, back, isShown, notEmpty, members⟩
    · refine .inl ⟨?_, same⟩
      rw [show spelled (some mark) word = word.text from same]
      exact unmarked
    · refine .inr ⟨?_, front, back, isShown, notEmpty,
        fun c member => word.isAsciiWord_of_mem c (members c member)⟩
      rw [show spelled (some mark) word = _ from isShown]
      simp

theorem spelled_of_name_eq {mark : Mark} {word : Identifier} (named : mark.name = word.text) :
    '(' ∈ spelled (some mark) word := by
  have replaced := @Text.replace_append mark.name (mark.name ++ "()") mark.name_ne_nil []
  rw [append_nil] at replaced
  rw [spelled, ← named, putMark, replaced]
  simp

/-- A keyword that is marked is no keyword any more. -/
theorem ne_keyword_of_lexFrom {word more : Text} (starts : word <+: ("function" : Text))
    (notEmpty : word ≠ []) {token : Token} {others : List Token}
    (isFirst : lexFrom .code none (word ++ '(' :: more) = token :: others) :
    token.kind ≠ .keyword := by
  have isTake := prefix_iff_eq_take.mp starts
  have bounded : word.length < 9 := Nat.lt_succ_of_le starts.length_le
  have noFunction : LexRule.functionKeyword none (word ++ '(' :: more) = none := by
    have positive := length_pos_iff.mpr notEmpty
    have lengths : word.length = 1 ∨ word.length = 2 ∨ word.length = 3 ∨ word.length = 4 ∨
        word.length = 5 ∨ word.length = 6 ∨ word.length = 7 ∨ word.length = 8 := by omega
    rcases lengths with length | length | length | length | length | length | length | length
    all_goals
      rw [length] at isTake
      rw [isTake]
      rfl
  have unlisted : keywords.contains word = false := by
    have allUnlisted : ∀ length < 9,
        keywords.contains (("function" : Text).take length) = false := by decide
    rw [isTake]
    exact allUnlisted word.length bounded
  have words : ∀ c ∈ word, isWord c :=
    fun c member => all_eq_true.mp (by decide : ("function" : Text).all isWord) c
      (starts.subset member)
  obtain ⟨c, tail, rfl⟩ := exists_cons_of_ne_nil notEmpty
  have taken : (tail ++ '(' :: more).takeWhile isWord = tail := by
    rw [takeWhile_append_of_pos (forall_mem_cons.mp words).2,
      takeWhile_cons_of_neg (by decide), append_nil]
  rw [cons_append] at isFirst noFunction
  have keyword : LexRule.functionKeyword.Avoids .keyword none (c :: (tail ++ '(' :: more)) := by
    intro step applied
    rw [noFunction] at applied
    cases applied
  have known : LexRule.knownWord.Avoids .keyword none (c :: (tail ++ '(' :: more)) := by
    intro step applied
    rw [LexRule.knownWord] at applied
    simp only [taken, unlisted, Bool.false_eq_true, if_false] at applied
    split at applied
    · intro piece member
      obtain ⟨_, ⟨⟩⟩ := Option.ite_none_right_eq_some.mp applied
      simp [mem_singleton.mp member]
    · cases applied
  exact ne_of_lexFrom (LexMode.avoids_of_table (by simpa [LexMode.table] using ⟨keyword, known⟩))
    (by simp) (by simp) isFirst

end

section

variable {c : Char}

theorem not_isBlank_of_isSpacedCharacter (spaced : isSpacedCharacter c)
    (notIndent : isIndent c = false) : isBlank c = false := by
  simp only [isSpacedCharacter, notIndent, Bool.or_false, Bool.or_eq_true, beq_iff_eq,
    or_assoc] at spaced
  rcases spaced with isSpelled | rfl | rfl | rfl | rfl
  · exact not_isBlank_of_isSpelledCharacter isSpelled
  · decide
  · decide
  · decide
  · decide

theorem SpacedOutputs.text_ne_nil {spell : Identifier → Text} (spelling : IsSpelling spell)
    (outputs : SpacedOutputs) : outputs.text spell ≠ [] := by
  cases outputs with
  | single word => exact spelling.ne_nil word
  | commas cells => exact cons_ne_nil _ _
  | gaps front first others back => exact cons_ne_nil _ _

/-- Outputs as they stand in a head, with the gap in front of the equals sign. -/
def Assignment.headOutputs (assignment : Assignment) (mark : Option Mark) : HeadOutputs where
  text := assignment.outputs.text (spelled mark) ++ assignment.before.text
  gap := assignment.after
  text_ne_nil := append_ne_nil_of_left_ne_nil
    (assignment.outputs.text_ne_nil (isSpelling_spelled mark)) _
  visible := by
    intro c member
    have inText : c ∈ assignment.text (spelled mark) := by
      rw [Assignment.text, ← append_assoc]
      exact mem_append_left _ (mem_of_head? member)
    exact not_isBlank_of_isSpacedCharacter
      (assignment.isSpacedCharacter_of_mem (isSpelling_spelled mark) c inText)
      (assignment.outputs.head?_text_append (isSpelling_spelled mark) _ c member)
  oneLine := by
    intro member
    have inText : '\n' ∈ assignment.text (spelled mark) := by
      rw [Assignment.text, ← append_assoc]
      exact mem_append_left _ member
    exact absurd (assignment.isSpacedCharacter_of_mem (isSpelling_spelled mark) _ inText)
      (by decide)

def isCallCharacter (c : Char) : Bool :=
  isSpelledCharacter c || isIndent c || c == ','

theorem isCallCharacter_of_isIndent (indent : isIndent c) : isCallCharacter c := by
  simp [isCallCharacter, indent]

theorem isCallCharacter_of_isSpelled (isSpelled : isSpelledCharacter c) : isCallCharacter c := by
  simp [isCallCharacter, isSpelled]

theorem not_mem_of_isCallCharacter {text : Text} (characters : ∀ c ∈ text, isCallCharacter c)
    {sign : Char} (other : isCallCharacter sign = false) : sign ∉ text :=
  fun member => ne_of_test (characters sign member) other rfl

theorem SpacedCall.isCallCharacter_of_mem_inner (call : SpacedCall) :
    ∀ c ∈ call.inner, isCallCharacter c :=
  forall_mem_cellsText
    (fun word c member =>
      isCallCharacter_of_isSpelled (isSpelling_argument.isSpelled word c member))
    (fun _ indent => isCallCharacter_of_isIndent indent) (by decide) call.arguments

theorem SpacedCall.opening_not_mem_inner (call : SpacedCall) : '(' ∉ call.inner := by
  intro member
  rcases call.isListed_or_of_mem_inner '(' member with listed | isTilde
  · exact absurd listed (by decide)
  · exact absurd isTilde (by decide)

namespace SpacedSignature

variable (signature : SpacedSignature) (mark : Option Mark)

def headText : Text :=
  signature.keywordGap.text ++ (signature.assignmentText mark ++
    (spelled mark signature.name ++ (signature.callText ++ signature.ending.text)))

theorem written_eq_headText :
    signature.written mark = putMark mark "function" ++ signature.headText mark :=
  rfl

private theorem exists_headText_eq_cons :
    ∃ next more, signature.headText mark = next :: more ∧ (isBlank next || next == '[') := by
  by_cases noGap : signature.keywordGap.text = []
  · obtain ⟨found, isFound, bracketed⟩ := signature.spaced noGap
    rw [headText, noGap, signature.assignmentText_eq mark isFound, Assignment.text,
      SpacedOutputs.text, if_pos bracketed]
    exact ⟨'[', _, rfl, by decide⟩
  · obtain ⟨next, more, isGap⟩ := exists_cons_of_ne_nil noGap
    have blank := signature.keywordGap.isBlank_of_mem next (by simp [isGap])
    rw [headText, isGap]
    exact ⟨next, _, rfl, by simp [blank]⟩

theorem lexFrom_written (intact : putMark mark "function" = "function") (indentation : Gap)
    (rest : Text) :
    lexFrom .code none (indentation.text ++ (signature.written mark ++ '\n' :: rest)) =
      ⟨.keyword, indentation.text ++ "function"⟩ ::
        lexFrom .functionHead (some 'n') (signature.headText mark ++ '\n' :: rest) := by
  obtain ⟨next, more, isHead, spaced⟩ := signature.exists_headText_eq_cons mark
  rw [written_eq_headText, intact, isHead, append_assoc]
  exact lexFrom_keyword indentation.isIndent_of_mem spaced _

def headOutputs : Option HeadOutputs :=
  signature.assignment.map (Assignment.headOutputs · mark)

def outputNames : Option (List Text) :=
  signature.assignment.bind fun found =>
    foundNames (found.outputs.words (spelled mark))

theorem isCallCharacter_of_mem_name : ∀ c ∈ spelled mark signature.name, isCallCharacter c :=
  fun c member => isCallCharacter_of_isSpelled
    ((isSpelling_spelled mark).isSpelled signature.name c member)

theorem isCallCharacter_of_mem_gap (gap : Gap) : ∀ c ∈ gap.text, isCallCharacter c :=
  fun c member => isCallCharacter_of_isIndent (gap.isIndent_of_mem c member)

theorem not_isBlank_head?_name (rest : Text) :
    ∀ c ∈ (spelled mark signature.name ++ rest).head?, isBlank c = false :=
  fun c member => not_isBlank_of_isSpelledCharacter
    ((isSpelling_spelled mark).head?_append signature.name rest c member)

/-- A head with the outputs of the signature and with a call of these parts. -/
def headWith (name arguments ending : Text) (name_ne_nil : name ≠ [])
    (visible : ∀ c ∈ name.head?, isBlank c = false)
    (characters : ∀ c ∈ name ++ (arguments ++ ending), isCallCharacter c)
    (noOpening : '(' ∉ arguments ++ ending) (noClosing : ')' ∉ ending) : CalledHead where
  gap := signature.keywordGap
  outputs := signature.headOutputs mark
  name
  arguments
  ending
  name_ne_nil
  visible
  oneLine := not_mem_of_isCallCharacter characters (by decide)
  noEquals := not_mem_of_isCallCharacter characters (by decide)
  noOpening
  noClosing

def callHead (call : SpacedCall) : CalledHead :=
  signature.headWith mark (spelled mark signature.name ++ call.gap.text) call.inner
    signature.ending.text (append_ne_nil_of_left_ne_nil ((isSpelling_spelled mark).ne_nil _) _)
    (signature.not_isBlank_head?_name mark _)
    (forall_mem_append.mpr
      ⟨forall_mem_append.mpr ⟨signature.isCallCharacter_of_mem_name mark,
        isCallCharacter_of_mem_gap call.gap⟩, forall_mem_append.mpr
          ⟨call.isCallCharacter_of_mem_inner, isCallCharacter_of_mem_gap signature.ending⟩⟩)
    (by
      rw [mem_append, not_or]
      exact ⟨call.opening_not_mem_inner, signature.ending.not_mem (by decide)⟩)
    (signature.ending.not_mem (by decide))

theorem text_callHead {call : SpacedCall} (isCall : signature.call = some call) :
    (signature.callHead mark call).text = signature.headText mark := by
  rw [CalledHead.text, CalledHead.assignmentText, CalledHead.callText, headText,
    signature.callText_eq isCall, SpacedCall.text, assignmentText]
  simp only [callHead, headWith, headOutputs, SpacedCall.inner]
  cases signature.assignment with
  | none => simp
  | some found => simp [Assignment.headOutputs, Assignment.text]

/-- A signature whose name is marked as a head: the parentheses are a call without arguments. -/
theorem exists_markedHead (uncalled : signature.call = none) {front back : Text}
    (isSpelled : spelled mark signature.name = front ++ '(' :: ')' :: back) (notEmpty : front ≠ [])
    (isBack : ∀ c ∈ back, isAsciiWord c) :
    ∃ head : CalledHead, head.text = signature.headText mark ∧
      head.outputs = signature.headOutputs mark ∧ head.arguments = [] ∧
      head.ending = back ++ signature.ending.text := by
  have visible : ∀ c ∈ front.head?, isBlank c = false := by
    have visibleName := signature.not_isBlank_head?_name mark []
    obtain ⟨first, others, rfl⟩ := exists_cons_of_ne_nil notEmpty
    rw [isSpelled] at visibleName
    simpa using visibleName
  have inName := signature.isCallCharacter_of_mem_name mark
  rw [isSpelled] at inName
  have characters : ∀ c ∈ front ++ ([] ++ (back ++ signature.ending.text)), isCallCharacter c := by
    refine forall_mem_append.mpr ⟨fun c member => inName c (by simp [member]), ?_⟩
    refine forall_mem_append.mpr ⟨forall_mem_nil _, forall_mem_append.mpr
      ⟨fun c member => inName c (by simp [member]), isCallCharacter_of_mem_gap signature.ending⟩⟩
  have absent : ∀ sign, isAsciiWord sign = false → isIndent sign = false →
      sign ∉ back ++ signature.ending.text := by
    intro sign notWord notIndent
    rw [mem_append, not_or]
    exact ⟨fun member => ne_of_test (isBack sign member) notWord rfl,
      signature.ending.not_mem notIndent⟩
  refine ⟨signature.headWith mark front [] (back ++ signature.ending.text) notEmpty visible
    characters (absent '(' (by decide) (by decide)) (absent ')' (by decide) (by decide)), ?_,
    rfl, rfl, rfl⟩
  rw [CalledHead.text, CalledHead.assignmentText, CalledHead.callText, headText,
    signature.callText_eq_nil uncalled, isSpelled, assignmentText]
  simp only [headWith, headOutputs]
  cases signature.assignment with
  | none => simp
  | some found => simp [Assignment.headOutputs, Assignment.text]

end SpacedSignature

end

def SpacedCall.argumentNames (call : SpacedCall) : Option (List Text) :=
  if call.inner = [] then none else some (call.arguments.map (Cell.bare Argument.text))

private theorem squeeze_eq_nil_iff (text : Text) : squeeze text = [] ↔ text = [] := by
  cases text with
  | nil => exact iff_of_true rfl rfl
  | cons c text =>
    refine iff_of_false ?_ (cons_ne_nil _ _)
    rw [squeeze, squeezeFrom]
    split
    · exact cons_ne_nil _ _
    · exact cons_ne_nil _ _

theorem SpacedCall.argumentNames_squeezed (call : SpacedCall) :
    call.squeezed.argumentNames = call.argumentNames := by
  have bare : call.arguments.map (Cell.bare Argument.text ∘ Cell.squeezed) =
      call.arguments.map (Cell.bare Argument.text) :=
    map_congr_left fun cell _ => cell.bare_squeezed Argument.text
  rw [argumentNames, argumentNames, call.inner_squeezed]
  simp [squeeze_eq_nil_iff, squeezed, bare]

namespace SpacedSignature

variable (signature : SpacedSignature) (mark : Option Mark) (name module : Text)

/-- What is read from a line with a marked name, and from the code below it. -/
def outline (rest : Text) : Outline :=
  match signature.call with
  | some call =>
    ⟨some name, signature.outputNames mark, call.argumentNames, bodyDocstring (tokensBelow rest)⟩
  | none =>
    if '(' ∈ spelled mark signature.name then
      ⟨some name, signature.outputNames mark, none,
        if (spelled mark signature.name).getLast? = some ')' then bodyDocstring (tokensBelow rest)
        else []⟩
    else if signature.assignment.isSome then .blank name
    else ⟨some name, none, none, bodyDocstring (lexFrom .code (some '\n') rest)⟩

theorem name_outline (rest : Text) : (signature.outline mark name rest).name = some name := by
  rw [outline]
  split
  · rfl
  · split
    · rfl
    · split
      · rfl
      · rfl

theorem outputNames_squeezed :
    signature.squeezed.outputNames mark = signature.outputNames mark := by
  rw [outputNames, outputNames, assignment_squeezed]
  cases signature.assignment with
  | none => rfl
  | some found =>
    exact congrArg foundNames (found.outputs.words_squeezed (spelled mark))

theorem outline_squeezed (rest : Text) :
    signature.squeezed.outline mark name rest = signature.outline mark name rest := by
  rw [outline, outline, call_squeezed, outputNames_squeezed, name_squeezed, assignment_squeezed]
  cases signature.call with
  | none => simp only [Option.map_none, Option.isSome_map]
  | some call => simp only [Option.map_some, SpacedCall.argumentNames_squeezed]

theorem argumentNames_callHead (call : SpacedCall) :
    (signature.callHead mark call).argumentNames = call.argumentNames := by
  have isInner : (signature.callHead mark call).arguments = call.inner := rfl
  rw [CalledHead.argumentNames, SpacedCall.argumentNames]
  by_cases nothing : call.inner = []
  · rw [if_pos (isInner.trans nothing), if_pos nothing]
  · have isList : call.arguments ≠ [] := by
      intro empty
      rw [SpacedCall.inner, empty] at nothing
      exact nothing rfl
    rw [if_neg fun empty => nothing (isInner.symm.trans empty), if_neg nothing]
    exact congrArg some (map_strip_splitOn_cellsText isSpelling_argument isList)

theorem outputNames_headOutputs {signature : SpacedSignature} (tidy : signature.IsTidy) :
    ((signature.headOutputs mark).bind fun found => FunctionDef.outputNames found.text) =
      signature.outputNames mark := by
  rw [headOutputs, outputNames]
  cases isFound : signature.assignment with
  | none => rfl
  | some found =>
    exact found.outputs.outputNames_text_append (isSpelling_spelled mark)
      (tidy.separators found isFound) found.before (tidy.closing found isFound)

variable {signature} {rest : Text} (below : ∀ c ∈ (rest.dropWhile isBlank).head?, c ≠ '=')
  (keyword : Token) (before : Option Char)

include below

theorem outline_read_call (tidy : signature.IsTidy) {call : SpacedCall}
    (isCall : signature.call = some call) :
    (FunctionDef.read (.file name) module (keyword :: lexFrom .functionHead before
      (signature.headText mark ++ '\n' :: rest))).definition.outline =
      signature.outline mark name rest := by
  have blank : ∀ c ∈ (signature.callHead mark call).ending, isBlank c :=
    signature.ending.isBlank_of_mem
  rw [← signature.text_callHead mark isCall,
    (signature.callHead mark call).lexFrom_text_of_blank blank below before,
    outline_read, bodyDocstring_whitespace_append, argumentNames_callHead,
    CalledHead.outputNames, outline, isCall]
  exact congrArg (Outline.mk (some name) · _ _) (outputNames_headOutputs mark tidy)

theorem outline_read_marked (tidy : signature.IsTidy) (uncalled : signature.call = none)
    {front back : Text} (isSpelled : spelled mark signature.name = front ++ '(' :: ')' :: back)
    (notEmpty : front ≠ []) (isBack : ∀ c ∈ back, isAsciiWord c) :
    (read (.file name) module (keyword :: lexFrom .functionHead before
      (signature.headText mark ++ '\n' :: rest))).definition.outline =
      signature.outline mark name rest := by
  obtain ⟨head, isText, isOutputs, noArguments, isEnding⟩ :=
    signature.exists_markedHead mark uncalled isSpelled notEmpty isBack
  have isMarked : '(' ∈ spelled mark signature.name := by simp [isSpelled]
  have outputs : head.outputNames = signature.outputNames mark := by
    rw [CalledHead.outputNames, isOutputs]
    exact outputNames_headOutputs mark tidy
  have arguments : head.argumentNames = none := by
    rw [CalledHead.argumentNames, if_pos noArguments]
  rw [outline, uncalled, ← isText]
  simp only [if_pos isMarked]
  cases back with
  | nil =>
    have closes : (spelled mark signature.name).getLast? = some ')' := by simp [isSpelled]
    have blank : ∀ c ∈ head.ending, isBlank c := by
      rw [isEnding]
      exact signature.ending.isBlank_of_mem
    rw [head.lexFrom_text_of_blank blank below before, outline_read,
      bodyDocstring_whitespace_append, outputs, arguments, if_pos closes]
  | cons c back =>
    -- The name goes on behind the parentheses and stands in the way of a comment block.
    have word : isAsciiWord c := isBack c mem_cons_self
    have notBlank : isBlank c = false := not_isBlank_of_isAsciiWord word
    have isLast := getLast?_eq_some_getLast (cons_ne_nil c back)
    have goesOn : (spelled mark signature.name).getLast? ≠ some ')' := by
      rw [isSpelled, append_cons, append_cons, getLast?_append, isLast,
        Option.some_or, Ne, Option.some.injEq]
      exact ne_of_test (isBack _ (mem_of_getLast? isLast)) (by decide)
    have quiet : Quiet (lexFrom .code (some ')')
        (c :: back ++ (signature.ending.text ++ '\n' :: rest))) :=
      quiet_lexFrom_code ⟨c, mem_cons_self, notBlank⟩
        (fun member => ne_of_test (isBack _ member) (by decide) rfl)
        (fun d member => ⟨ne_of_test (isBack d member) (by decide),
          ne_of_test (isBack d member) (by decide)⟩) (by decide) _
    rw [head.lexFrom_text below before, isEnding, append_assoc, cons_append,
      takeWhile_cons_of_neg (by simp [notBlank]),
      dropWhile_cons_of_neg (by simp [notBlank]), outline_read,
      bodyDocstring_whitespace_append, outputs, arguments, if_neg goesOn]
    exact congrArg (Outline.mk (some name) _ none) quiet.bodyDocstring_eq

end SpacedSignature

/-- A line with one equals sign and something behind it has no call if it has no parentheses. -/
theorem uncalled_append {front back : Text}
    (characters : ∀ c ∈ front ++ '=' :: back, isUncalledCharacter c) (frontPlain : '=' ∉ front)
    (backPlain : '=' ∉ back) (visible : ∃ c ∈ back, isBlank c = false) :
    Uncalled (front ++ '=' :: back) where
  characters
  afterEquals := by
    intro otherFront otherBack same
    obtain ⟨_, _, rfl⟩ := (append_cons_inj_of_notMem frontPlain backPlain).mp same
    exact ⟨backPlain, visible⟩

theorem isUncalledCharacter_of_isIndent {c : Char} (indent : isIndent c) :
    isUncalledCharacter c := by
  simp [isUncalledCharacter, indent]

theorem Gap.isUncalledCharacter_of_mem (gap : Gap) : ∀ c ∈ gap.text, isUncalledCharacter c :=
  fun c member => isUncalledCharacter_of_isIndent (gap.isIndent_of_mem c member)

theorem Identifier.isUncalledCharacter_of_mem (word : Identifier) :
    ∀ c ∈ word.text, isUncalledCharacter c := by
  intro c member
  simp [isUncalledCharacter, word.isAsciiWord_of_mem c member]

theorem Identifier.exists_visible (word : Identifier) (rest : Text) :
    ∃ c ∈ word.text ++ rest, isBlank c = false := by
  obtain ⟨c, others, shape⟩ := exists_cons_of_ne_nil word.text_ne_nil
  exact ⟨c, by simp [shape],
    not_isBlank_of_isAsciiWord (word.isAsciiWord_of_mem c (by simp [shape]))⟩

theorem SpacedOutputs.isUncalledCharacter_of_mem (outputs : SpacedOutputs) :
    ∀ c ∈ outputs.text Identifier.text, isUncalledCharacter c ∧ c ≠ '=' := by
  have inner : ∀ c ∈ outputs.inner Identifier.text, isUncalledCharacter c ∧ c ≠ '=' := by
    refine forall_mem_inner (fun word c member => ?_) (fun c indent => ?_) (by decide) outputs
    · exact ⟨word.isUncalledCharacter_of_mem c member,
        ne_of_test (word.isAsciiWord_of_mem c member) (by decide)⟩
    · exact ⟨isUncalledCharacter_of_isIndent indent, ne_of_test indent (by decide)⟩
  rw [text]
  split
  · exact forall_mem_cons.mpr ⟨by decide, forall_mem_append.mpr
      ⟨inner, forall_mem_singleton.mpr (by decide)⟩⟩
  · exact inner

namespace SpacedSignature

variable {signature : SpacedSignature}

theorem headText_unassigned {mark : Option Mark} (unassigned : signature.assignment = none)
    (uncalled : signature.call = none)
    (unmarked : spelled mark signature.name = signature.name.text) :
    signature.headText mark =
      signature.keywordGap.text ++ (signature.name.text ++ signature.ending.text) := by
  rw [headText, signature.assignmentText_eq_nil mark unassigned, unmarked,
    signature.callText_eq_nil uncalled, nil_append, nil_append]

variable {found : Assignment}

theorem headText_assigned (isFound : signature.assignment = some found)
    (uncalled : signature.call = none) :
    signature.headText none = signature.keywordGap.text ++ (found.outputs.text Identifier.text ++
      (found.before.text ++ '=' :: (found.after.text ++
        (signature.name.text ++ signature.ending.text)))) := by
  rw [headText, signature.assignmentText_eq none isFound, signature.callText_eq_nil uncalled,
    Assignment.text, spelled_none]
  simp

theorem uncalled_unassigned :
    Uncalled (signature.keywordGap.text ++ (signature.name.text ++ signature.ending.text)) where
  characters := forall_mem_append.mpr ⟨signature.keywordGap.isUncalledCharacter_of_mem,
    forall_mem_append.mpr
      ⟨signature.name.isUncalledCharacter_of_mem, signature.ending.isUncalledCharacter_of_mem⟩⟩
  afterEquals := by
    intro front back same
    have member : '=' ∈ signature.keywordGap.text ++
        (signature.name.text ++ signature.ending.text) := by simp [same]
    have inGap : ∀ gap : Gap, '=' ∉ gap.text := fun gap => gap.not_mem (by decide)
    have inName : '=' ∉ signature.name.text :=
      signature.name.not_mem_of_not_isAsciiWord (by decide)
    simp [inGap, inName] at member

theorem uncalled_assigned (found : Assignment) :
    Uncalled (signature.keywordGap.text ++ (found.outputs.text Identifier.text ++
      (found.before.text ++ '=' :: (found.after.text ++
        (signature.name.text ++ signature.ending.text))))) := by
  have inGap : ∀ gap : Gap, '=' ∉ gap.text := fun gap => gap.not_mem (by decide)
  have inName : '=' ∉ signature.name.text := signature.name.not_mem_of_not_isAsciiWord (by decide)
  have inOutputs : '=' ∉ found.outputs.text Identifier.text :=
    fun member => (found.outputs.isUncalledCharacter_of_mem '=' member).2 rfl
  have uncalled : Uncalled ((signature.keywordGap.text ++ (found.outputs.text Identifier.text ++
      found.before.text)) ++ '=' :: (found.after.text ++
        (signature.name.text ++ signature.ending.text))) := by
    refine uncalled_append ?_ (by simp [inGap, inOutputs]) (by simp [inGap, inName]) ?_
    · refine forall_mem_append.mpr ⟨forall_mem_append.mpr
        ⟨signature.keywordGap.isUncalledCharacter_of_mem, forall_mem_append.mpr
          ⟨fun c member => (found.outputs.isUncalledCharacter_of_mem c member).1,
            found.before.isUncalledCharacter_of_mem⟩⟩, forall_mem_cons.mpr ⟨by decide, ?_⟩⟩
      exact forall_mem_append.mpr ⟨found.after.isUncalledCharacter_of_mem,
        forall_mem_append.mpr ⟨signature.name.isUncalledCharacter_of_mem,
          signature.ending.isUncalledCharacter_of_mem⟩⟩
    · obtain ⟨c, member, isVisible⟩ := signature.name.exists_visible signature.ending.text
      exact ⟨c, mem_append_right _ member, isVisible⟩
  simpa only [append_assoc] using uncalled

theorem ended_append {front : Text} {signs : Nat}
    (uncalled : Uncalled (front ++ (signature.name.text ++ signature.ending.text)))
    (enough : signs ≤ front.countP isPartingSign) :
    Ended (front ++ (signature.name.text ++ signature.ending.text)) signs :=
  ⟨uncalled, front, _, rfl, signature.name.exists_visible signature.ending.text, enough⟩

variable (name module : Text) {rest : Text}
  (below : ∀ c ∈ (rest.dropWhile isBlank).head?, c ≠ '=') (keyword : Token) (before : Option Char)

include below

theorem outline_read_brackets (isFound : signature.assignment = some found)
    (uncalled : signature.call = none) (bracketed : found.outputs.isBracketed) :
    (read (.file name) module (keyword :: lexFrom .functionHead before
      (signature.headText none ++ '\n' :: rest))).definition.outline = .blank name := by
  have wholeLine : Uncalled _ := @uncalled_assigned signature found
  rw [headText_assigned isFound uncalled]
  rw [SpacedOutputs.text, if_pos bracketed] at wholeLine ⊢
  let front := signature.keywordGap.text ++ ('[' :: (found.outputs.inner Identifier.text ++
    ']' :: (found.before.text ++ '=' :: found.after.text)))
  have regrouped : signature.keywordGap.text ++
      ('[' :: (found.outputs.inner Identifier.text ++ [']']) ++ (found.before.text ++
        '=' :: (found.after.text ++ (signature.name.text ++ signature.ending.text)))) =
      front ++ (signature.name.text ++ signature.ending.text) := by
    simp [front]
  -- The brackets and the equals sign are three signs in front of the name.
  have enough : 3 ≤ front.countP isPartingSign := by
    have opening : isPartingSign '[' := by decide
    have closing : isPartingSign ']' := by decide
    have equals : isPartingSign '=' := by decide
    simp only [front, countP_append, countP_cons, opening, closing, equals, if_true]
    omega
  rw [regrouped] at wholeLine ⊢
  refine outline_read_bracketed below keyword before (ended_append wholeLine enough) ?_
  rw [append_assoc, dropWhile_append_of_pos signature.keywordGap.isBlank_of_mem,
    cons_append, dropWhile_cons_of_neg (by decide)]
  simp

private theorem outline_read_word (isFound : signature.assignment = some found)
    (uncalled : signature.call = none) {word : Identifier}
    (isSingle : found.outputs = .single word) :
    (read (.file name) module (keyword :: lexFrom .functionHead before
      (signature.headText none ++ '\n' :: rest))).definition.outline = .blank name := by
  have wholeLine : Uncalled _ := @uncalled_assigned signature found
  have isGap : signature.keywordGap.text ≠ [] := by
    intro noGap
    obtain ⟨other, isOther, bracketed⟩ := signature.spaced noGap
    obtain rfl := Option.some.inj (isFound.symm.trans isOther)
    simp [isSingle, isBracketed] at bracketed
  have isText : found.outputs.text Identifier.text = word.text := by
    rw [isSingle]
    rfl
  rw [headText_assigned isFound uncalled]
  rw [isText] at wholeLine ⊢
  have behind := wholeLine.of_append.of_append
  have regrouped : found.before.text ++ '=' :: (found.after.text ++
      (signature.name.text ++ signature.ending.text)) =
      (found.before.text ++ '=' :: found.after.text) ++
        (signature.name.text ++ signature.ending.text) := by
    simp
  have enough : 1 ≤ (found.before.text ++ '=' :: found.after.text).countP isPartingSign := by
    have equals : isPartingSign '=' := by decide
    simp only [countP_append, countP_cons, equals, if_true]
    omega
  have starts : ∀ c ∈ (found.before.text ++ '=' :: (found.after.text ++
      (signature.name.text ++ signature.ending.text))).head?, isWord c = false :=
    head?_append_eq_false found.before.not_isWord_of_mem
      (by simpa using (by decide : isWord '=' = false))
  have ended : Ended (found.before.text ++ '=' :: (found.after.text ++
      (signature.name.text ++ signature.ending.text))) 1 := by
    rw [regrouped] at behind ⊢
    exact ended_append behind enough
  exact outline_read_single below keyword before isGap wholeLine starts ended

theorem outline_read (tidy : signature.IsTidy) {mark : Option Mark}
    (permits : signature.Permits mark) :
    (read (.file name) module (keyword :: lexFrom .functionHead before
      (signature.headText mark ++ '\n' :: rest))).definition.outline =
      signature.outline mark name rest := by
  cases isCall : signature.call with
  | some call => exact outline_read_call mark name module below keyword before tidy isCall
  | none =>
    rcases spelled_cases mark signature.name with
      ⟨unmarked, isSpelled⟩ | ⟨_, front, back, isSpelled, notEmpty, isBack⟩
    · rw [outline, isCall]
      simp only [if_neg unmarked]
      cases isFound : signature.assignment with
      | none =>
        rw [headText_unassigned isFound isCall isSpelled]
        exact outline_read_bare below keyword before
          (tidy.keyword isFound isCall) uncalled_unassigned
      | some found =>
        obtain rfl : mark = none := by
          cases mark with
          | none => rfl
          | some mark =>
            have named := permits.named mark rfl (by simp [isFound])
            exact absurd (spelled_of_name_eq named) unmarked
        cases outputs : found.outputs with
        | single word =>
          exact outline_read_word name module below keyword before isFound isCall outputs
        | commas cells =>
          exact outline_read_brackets name module below keyword before isFound isCall
            (by simp [outputs, isBracketed])
        | gaps front first others back =>
          exact outline_read_brackets name module below keyword before isFound isCall
            (by simp [outputs, isBracketed])
    · exact outline_read_marked mark name module below keyword before tidy isCall isSpelled
        notEmpty isBack

end SpacedSignature

end MatlabDocs
