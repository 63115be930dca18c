import MatlabDocs.Proofs.Text.Pieces
import MatlabDocs.Proofs.Token.HeadExtent
import MatlabDocs.Token.Lexer

/-!
# The extent of the rules

No rule of the lexer takes more characters than there are, most rules of plain code stay in the
line, and a rule of a single token gives tokens of a few kinds only.  Since every rule takes at
least one character, none applies at the end of the code.
-/

namespace MatlabDocs

open List Option

theorem piecesLength_append (first second : List (TokenKind × Nat)) :
    piecesLength (first ++ second) = piecesLength first + piecesLength second := by
  induction first with
  | nil => simp [piecesLength]
  | cons piece first ih => simp [piecesLength, ih, Nat.add_assoc]

section

variable {c : Char} {text rest : Text}

theorem lineLength_cons (inLine : c ≠ '\n') : lineLength (c :: rest) = lineLength rest + 1 := by
  simp [lineLength, inLine]

theorem length_takeWhile_le_lineLength {test : Char → Bool} (stops : test '\n' = false)
    (text : Text) : (text.takeWhile test).length ≤ lineLength text := by
  induction text with
  | nil => exact Nat.zero_le _
  | cons c rest ih =>
    by_cases passes : test c
    · have inLine : c ≠ '\n' := ne_of_test passes stops
      rw [takeWhile_cons_of_pos passes, lineLength_cons inLine]
      exact Nat.succ_le_succ ih
    · rw [takeWhile_cons_of_neg passes]
      exact Nat.zero_le _

theorem lineLength_drop {count : Nat} (inside : count ≤ lineLength text) :
    lineLength (text.drop count) = lineLength text - count := by
  induction text generalizing count with
  | nil => simp [lineLength]
  | cons c rest ih =>
    cases count with
    | zero => rfl
    | succ count =>
      have inLine : c ≠ '\n' := by
        rintro rfl
        exact absurd inside (Nat.not_succ_le_zero _)
      rw [lineLength_cons inLine] at inside ⊢
      rw [drop_succ_cons, ih (Nat.le_of_succ_le_succ inside)]
      omega

end

/-- The pieces of the step lie within the text and are of these kinds, and the mode follows. -/
structure LexStep.Fits (step : LexStep) (kinds : List TokenKind) (mode : LexMode) (text : Text) :
    Prop where
  within : step.length ≤ text.length
  listed : ∀ piece ∈ step.pieces, piece.1 ∈ kinds
  leads : step.mode = mode

namespace LexRule

variable (rule : LexRule) (kinds : List TokenKind)

def StaysWithin : Prop :=
  ∀ before text step, rule before text = some step → step.length ≤ text.length

/-- The rule gives tokens of these kinds only and leads to this mode. -/
def Gives (mode : LexMode) : Prop :=
  ∀ before text step, rule before text = some step → step.Fits kinds mode text

/-- The rule gives tokens of these kinds only, which lie within the line, and plain code follows. -/
def GivesInLine : Prop :=
  ∀ before text step, rule before text = some step →
    step.Fits kinds .code text ∧ step.length ≤ lineLength text

theorem GivesInLine.gives {rule : LexRule} {kinds : List TokenKind}
    (gives : rule.GivesInLine kinds) : rule.Gives kinds .code :=
  fun before text step applied => (gives before text step applied).1

theorem StaysWithin.eq_none_of_nil {rule : LexRule} (within : rule.StaysWithin)
    (before : Option Char) : rule before [] = none := by
  cases applied : rule before [] with
  | none => rfl
  | some step =>
    have bounded : step.length ≤ 0 := within before [] step applied
    have advances : 0 < step.length := step.advances
    omega

section

variable {kind : TokenKind} {kinds : List TokenKind} {more : Nat} {mode : LexMode}
  {text : Text} {step : LexStep}

theorem single_fits (listed : kind ∈ kinds) (inside : more < text.length)
    (applied : some (LexStep.single kind more mode) = some step) : step.Fits kinds mode text := by
  obtain rfl := some.inj applied
  refine ⟨inside, fun piece member => ?_, rfl⟩
  obtain rfl := mem_singleton.mp member
  exact listed

theorem single_fitsLine (listed : kind ∈ kinds) (inside : more < lineLength text)
    (applied : some (LexStep.single kind more .code) = some step) :
    step.Fits kinds .code text ∧ step.length ≤ lineLength text := by
  refine ⟨single_fits listed (Nat.lt_of_lt_of_le inside (length_takeWhile_le ..)) applied, ?_⟩
  obtain rfl := some.inj applied
  exact inside

/-- Most rules take a single piece under a condition. -/
theorem guarded_fitsLine {guard : Prop} [Decidable guard] (listed : kind ∈ kinds)
    (inside : guard → more < lineLength text)
    (applied : (if guard then some (LexStep.single kind more .code) else none) = some step) :
    step.Fits kinds .code text ∧ step.length ≤ lineLength text := by
  split at applied
  · rename_i holds
    exact single_fitsLine listed (inside holds) applied
  · cases applied

end

theorem shellCommand_gives : shellCommand.GivesInLine [.shellCommand] := by
  intro before text step applied
  unfold shellCommand at applied
  split at applied
  · rename_i rest
    have line : lineLength ('!' :: rest) = lineLength rest + 1 := lineLength_cons (by decide)
    exact guarded_fitsLine (by simp) (by omega) applied
  · cases applied

theorem blockCommentOpening_gives : blockCommentOpening.Gives [.blockComment] .blockComment := by
  intro before text step applied
  unfold blockCommentOpening at applied
  split at applied
  · rename_i rest
    have blanks := length_takeWhile_le isBlank rest
    have trimmed := Text.length_trimRight_le (· != '\n') (rest.takeWhile isBlank)
    dsimp only at applied
    split at applied
    · refine single_fits (by simp) ?_ applied
      simp only [length_cons]
      omega
    · cases applied
  · cases applied

theorem lineComment_gives : lineComment.GivesInLine [.comment] := by
  intro before text step applied
  unfold lineComment at applied
  split at applied
  · rename_i rest
    have line : lineLength ('%' :: rest) = lineLength rest + 1 := lineLength_cons (by decide)
    exact single_fitsLine (by simp) (by omega) applied
  · cases applied

theorem functionKeyword_gives : functionKeyword.Gives [.keyword] .functionHead := by
  intro before text step applied
  unfold functionKeyword at applied
  dsimp only at applied
  split at applied
  · rename_i next rest shape
    have isKeyword : ("function" : Text) <+: text.drop (blankLength text) := by
      rw [Text.afterStart?] at shape
      split at shape
      · exact List.isPrefixOf_iff_prefix.mp ‹_›
      · cases shape
    have keyword : 8 ≤ (text.drop (blankLength text)).length := isKeyword.length_le
    rw [length_drop] at keyword
    split at applied
    · exact single_fits (by simp) (by omega) applied
    · cases applied
  · cases applied

theorem length_takeWhile_isWord_lt {c : Char} (rest : Text) (inLine : c ≠ '\n') :
    (rest.takeWhile isWord).length < lineLength (c :: rest) := by
  rw [lineLength_cons inLine]
  exact Nat.lt_succ_of_le (length_takeWhile_le_lineLength (by decide) rest)

theorem knownWord_gives : knownWord.GivesInLine [.keyword, .builtinName] := by
  intro before text step applied
  unfold knownWord at applied
  split at applied
  · rename_i c rest
    dsimp only at applied
    split at applied
    · rename_i word
      have inside := length_takeWhile_isWord_lt rest (ne_of_test word (by decide))
      split at applied
      · exact single_fitsLine (by simp) inside applied
      · exact guarded_fitsLine (by simp) (fun _ => inside) applied
    · cases applied
  · cases applied

theorem ellipsis_gives : ellipsis.GivesInLine [.comment] := by
  intro before text step applied
  unfold ellipsis at applied
  split at applied
  · rename_i rest
    have line : lineLength ('.' :: '.' :: '.' :: rest) = lineLength rest + 3 := by
      simp [lineLength_cons]
    exact single_fitsLine (by simp) (by omega) applied
  · cases applied

/-- A sign of a list that holds no line feed stands in a line. -/
theorem lineLength_pos {signs : List Char} (inLine : signs.contains '\n' = false) {c : Char}
    (rest : Text) (isSign : signs.contains c) : 0 < lineLength (c :: rest) := by
  rw [lineLength_cons (@ne_of_test _ signs.contains c _ isSign inLine)]
  exact Nat.succ_pos _

theorem comparison_gives : comparison.GivesInLine [.operator] := by
  intro before text step applied
  unfold comparison at applied
  split at applied
  case h_5 => exact guarded_fitsLine (by simp) (lineLength_pos (by decide) _) applied
  case h_6 => cases applied
  all_goals exact single_fitsLine (by simp) (by simp [lineLength_cons]) applied

theorem arithmetic_gives : arithmetic.GivesInLine [.operator] := by
  intro before text step applied
  unfold arithmetic at applied
  split at applied
  · refine guarded_fitsLine (by simp) (fun isSign => ?_) applied
    rw [lineLength_cons (by decide)]
    exact Nat.succ_lt_succ (lineLength_pos (by decide) _ isSign)
  · exact guarded_fitsLine (by simp) (lineLength_pos (by decide) _) applied
  · cases applied

theorem punctuation_gives : punctuation.GivesInLine [.punctuation] := by
  intro before text step applied
  unfold punctuation at applied
  split at applied
  · exact guarded_fitsLine (by simp) (lineLength_pos (by decide) _) applied
  · cases applied

theorem transpose_gives : transpose.GivesInLine [.operator] := by
  intro before text step applied
  unfold transpose at applied
  split at applied
  · rename_i rest
    have quotes := @length_takeWhile_le_lineLength (· == '\x27') (by decide) rest
    refine guarded_fitsLine (by simp) (fun _ => ?_) applied
    rw [lineLength_cons (by decide)]
    exact Nat.lt_succ_of_le quotes
  · cases applied

private theorem exponentLength_le (text : Text) : exponentLength text ≤ lineLength text := by
  unfold exponentLength
  split
  · rename_i mark rest
    split
    · rename_i isMark
      have inLine : mark ≠ '\n' := by
        rintro rfl
        exact absurd isMark (by decide)
      -- The sign is a character of its own, so the digits are counted in what follows it.
      have afterSign : ∀ sign, sign ≤ lineLength rest →
          (if ((rest.drop sign).takeWhile Char.isDigit).length = 0 then 0
            else 1 + sign + ((rest.drop sign).takeWhile Char.isDigit).length) ≤
            lineLength (mark :: rest) := by
        intro sign inside
        have digits := @length_takeWhile_le_lineLength Char.isDigit (by decide) (rest.drop sign)
        rw [lineLength_drop inside] at digits
        rw [lineLength_cons inLine]
        split <;> omega
      refine afterSign _ ?_
      cases rest with
      | nil => exact Nat.zero_le _
      | cons c rest =>
        dsimp only
        split
        · rename_i isSign
          rw [lineLength_cons]
          · omega
          · rintro rfl
            exact absurd isSign (by decide)
        · exact Nat.zero_le _
    · exact Nat.zero_le _
  · exact Nat.zero_le _

theorem number_gives : number.GivesInLine [.integer, .float] := by
  intro before text step applied
  unfold number at applied
  split at applied
  · rename_i c rest
    have digits := @length_takeWhile_le_lineLength isDigit (by decide) rest
    have behind := lineLength_drop digits
    dsimp only at applied
    split at applied
    · rename_i isDigit
      have line : lineLength (c :: rest) = lineLength rest + 1 :=
        lineLength_cons (ne_of_test isDigit (by decide))
      split at applied
      · rename_i fraction shape
        have places := @length_takeWhile_le_lineLength MatlabDocs.isDigit (by decide) fraction
        have exponent := exponentLength_le
          (fraction.drop (fraction.takeWhile MatlabDocs.isDigit).length)
        rw [lineLength_drop places] at exponent
        rw [shape, lineLength_cons (by decide)] at behind
        exact single_fitsLine (by simp) (by omega) applied
      · have exponent := exponentLength_le (rest.drop (rest.takeWhile MatlabDocs.isDigit).length)
        rw [behind] at exponent
        split at applied
        · exact single_fitsLine (by simp) (by omega) applied
        · exact single_fitsLine (by simp) (by omega) applied
    · cases applied
  · cases applied

theorem closingQuote?_le {text : Text} {length : Nat} (found : closingQuote? text = some length) :
    length ≤ text.length := by
  fun_induction closingQuote? text generalizing length with
  | case1 => cases found
  | case2 rest inner innerFound ih =>
    have bounded := ih innerFound
    obtain rfl := some.inj found
    simp only [length_cons]
    omega
  | case3 rest noInner ih =>
    obtain rfl := some.inj found
    simp
  | case4 rest notPair =>
    obtain rfl := some.inj found
    simp
  | case5 c rest notPair notQuote ih =>
    obtain ⟨inner, innerFound, rfl⟩ := map_eq_some_iff.mp found
    have bounded := ih innerFound
    simpa using bounded

theorem doubleQuoted_gives : doubleQuoted.Gives [.string] .code := by
  intro before text step applied
  unfold doubleQuoted at applied
  split at applied
  · obtain ⟨length, found, rfl⟩ := map_eq_some_iff.mp applied
    exact single_fits (by simp) (Nat.lt_succ_of_le (closingQuote?_le found)) rfl
  · cases applied

theorem quoteOpening_gives : quoteOpening.Gives [.string] .quotedText := by
  intro before text step applied
  unfold quoteOpening at applied
  split at applied
  · split at applied
    · cases applied
    · exact single_fits (by simp) (by simp) applied
  · cases applied

theorem name_gives : name.GivesInLine [.name] := by
  intro before text step applied
  unfold name at applied
  split at applied
  · rename_i c rest
    exact guarded_fitsLine (by simp) (fun initial => length_takeWhile_isWord_lt rest
      (@ne_of_test _ (fun c => c.isAlpha || c == '_') c _ initial (by decide))) applied
  · cases applied

theorem otherCharacter_gives : otherCharacter.GivesInLine [.text] := by
  intro before text step applied
  unfold otherCharacter at applied
  split at applied
  · split at applied
    · cases applied
    · rename_i inLine
      exact single_fitsLine (by simp) (by simp [lineLength_cons inLine]) applied
  · cases applied

theorem length_takeWhile_lt {stop : Char} {text : Text} (member : text.contains stop) :
    (text.takeWhile (· != stop)).length < text.length := by
  induction text with
  | nil => simp at member
  | cons c rest ih =>
    rw [takeWhile_cons]
    split
    · rename_i different
      have later : rest.contains stop := by
        rw [contains_cons, Bool.or_eq_true] at member
        rcases member with same | later
        · simp [eq_of_beq same] at different
        · exact later
      simpa using ih later
    · simp

theorem quoteClosing_gives : quoteClosing.Gives [.string] .code := by
  intro before text step applied
  unfold quoteClosing at applied
  dsimp only at applied
  split at applied
  · exact single_fits (by simp) (length_takeWhile_lt ‹_›) applied
  · cases applied

theorem blockCommentClosing_gives : blockCommentClosing.Gives [.blockComment] .code := by
  intro before text step applied
  unfold blockCommentClosing at applied
  dsimp only at applied
  split at applied
  · rename_i closes
    have sign : ("%\x7d" : Text) <+: text.drop (blankLength text) :=
      List.isPrefixOf_iff_prefix.mp (Bool.and_eq_true _ _ ▸ closes).2
    have two : 2 ≤ (text.drop (blankLength text)).length := sign.length_le
    rw [length_drop] at two
    exact single_fits (by simp) (by omega) applied
  · cases applied

theorem blockCommentLine_gives : blockCommentLine.Gives [.blockComment] .blockComment := by
  intro before text step applied
  unfold blockCommentLine at applied
  dsimp only at applied
  split at applied
  · rename_i hasEnd
    exact single_fits (by simp) (length_takeWhile_lt (Bool.and_eq_true _ _ ▸ hasEnd).2) applied
  · cases applied

theorem blockCommentCharacter_gives :
    blockCommentCharacter.Gives [.blockComment] .blockComment := by
  intro before text step applied
  unfold blockCommentCharacter at applied
  split at applied
  · split at applied
    · cases applied
    · exact single_fits (by simp) (by simp) applied
  · cases applied

def headKinds : List TokenKind :=
  [.whitespace, .text, .punctuation, .functionName]

theorem headWithCall_gives : headWithCall.Gives headKinds .code := by
  intro before text step applied
  obtain ⟨⟨blanks, outputs, call⟩, found, rfl⟩ := map_eq_some_iff.mp applied
  have extent := total_le_of_headLengths? found
  -- The blanks behind the head are counted in what the head leaves over.
  have behind : ∀ front, front ≤ text.length →
      front + (blankLength (text.drop front) + 0) ≤ text.length := by
    intro front inside
    have bounded := blankLength_le (text.drop front)
    rw [length_drop] at bounded
    omega
  refine ⟨?_, ?_, rfl⟩
  · simp only [LexStep.length, piecesLength_append _ [_], piecesLength]
    refine behind _ ?_
    cases outputs with
    | none =>
      simp only [HeadLengths.outputTotal, map_none, getD_none, CallLengths.total] at extent
      simp only [cons_append, nil_append, piecesLength]
      omega
    | some outputs =>
      simp only [HeadLengths.outputTotal, map_some, getD_some,
        CallLengths.total, OutputLengths.total] at extent
      simp only [cons_append, nil_append, piecesLength]
      omega
  · cases outputs <;> simp [headKinds]

theorem headWithoutCall_gives : headWithoutCall.Gives headKinds .code := by
  intro before text step applied
  unfold headWithoutCall at applied
  dsimp only at applied
  split at applied
  · rename_i c rest shape
    split at applied
    · obtain rfl := some.inj applied
      have word := length_takeWhile_le isWord rest
      have lengths := congrArg List.length shape
      rw [length_drop, length_cons] at lengths
      refine ⟨?_, by simp [headKinds], rfl⟩
      simp only [LexStep.length, piecesLength]
      omega
    · cases applied
  · cases applied

end LexRule

namespace LexMode

open LexRule

/-- The rules, with the kinds of the tokens that they give and the modes that they lead to. -/
def table : LexMode → List (LexRule × List TokenKind × LexMode)
  | .code =>
    [(shellCommand, [.shellCommand], .code), (blockCommentOpening, [.blockComment], .blockComment),
     (lineComment, [.comment], .code), (functionKeyword, [.keyword], .functionHead),
     (knownWord, [.keyword, .builtinName], .code), (ellipsis, [.comment], .code),
     (comparison, [.operator], .code), (arithmetic, [.operator], .code),
     (punctuation, [.punctuation], .code), (transpose, [.operator], .code),
     (number, [.integer, .float], .code), (doubleQuoted, [.string], .code),
     (quoteOpening, [.string], .quotedText), (name, [.name], .code),
     (otherCharacter, [.text], .code)]
  | .quotedText => [(quoteClosing, [.string], .code)]
  | .blockComment =>
    [(blockCommentClosing, [.blockComment], .code),
     (blockCommentLine, [.blockComment], .blockComment),
     (blockCommentCharacter, [.blockComment], .blockComment)]
  | .functionHead => [(headWithCall, headKinds, .code), (headWithoutCall, headKinds, .code)]

theorem table_gives (mode : LexMode) : ∀ entry ∈ mode.table, entry.1.Gives entry.2.1 entry.2.2 := by
  cases mode with
  | code =>
    simp only [table, forall_mem_cons]
    exact ⟨shellCommand_gives.gives, blockCommentOpening_gives, lineComment_gives.gives,
      functionKeyword_gives, knownWord_gives.gives, ellipsis_gives.gives, comparison_gives.gives,
      arithmetic_gives.gives, punctuation_gives.gives, transpose_gives.gives, number_gives.gives,
      doubleQuoted_gives, quoteOpening_gives, name_gives.gives, otherCharacter_gives.gives, by simp⟩
  | quotedText => simpa [table] using quoteClosing_gives
  | blockComment =>
    simp only [table, forall_mem_cons]
    exact ⟨blockCommentClosing_gives, blockCommentLine_gives, blockCommentCharacter_gives, by simp⟩
  | functionHead =>
    simp only [table, forall_mem_cons]
    exact ⟨headWithCall_gives, headWithoutCall_gives, by simp⟩

theorem exists_mem_table {mode : LexMode} {rule : LexRule} (member : rule ∈ mode.rules) :
    ∃ kinds target, (rule, kinds, target) ∈ mode.table ∧ rule.Gives kinds target := by
  have same : mode.table.map Prod.fst = mode.rules := by cases mode <;> rfl
  rw [← same] at member
  obtain ⟨⟨rule, kinds, target⟩, inTable, rfl⟩ := mem_map.mp member
  exact ⟨kinds, target, inTable, mode.table_gives _ inTable⟩

theorem rules_staysWithin (mode : LexMode) : ∀ rule ∈ mode.rules, rule.StaysWithin := by
  intro rule member
  obtain ⟨kinds, target, _, gives⟩ := exists_mem_table member
  exact fun before text step applied => (gives before text step applied).within

end LexMode

end MatlabDocs
