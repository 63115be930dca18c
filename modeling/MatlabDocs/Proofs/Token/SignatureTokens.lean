import MatlabDocs.Proofs.Source.CommentedRest
import MatlabDocs.Proofs.Token.Scanning

/-!
# Where a function head is cut

The head of a function is cut into its outputs, its name and its arguments where the signs of
the signature stand: the only equals sign, the last opening and the last closing
parenthesis of the line.
-/

namespace MatlabDocs

open List

section

variable {α : Type} {result? : Nat → Option α} {bound : Nat} {result : α}

theorem greatest?_eq_none (nowhere : ∀ number ≤ bound, result? number = none) :
    greatest? result? bound = none := by
  induction bound with
  | zero => exact nowhere 0 (Nat.le_refl 0)
  | succ bound ih =>
    rw [greatest?, nowhere _ (Nat.le_refl _), Option.none_or]
    exact ih fun number bounded => nowhere number (Nat.le_succ_of_le bounded)

theorem greatest?_eq_some (number : Nat) (bounded : number ≤ bound)
    (here : result? number = some result)
    (above : ∀ other, number < other → other ≤ bound → result? other = none) :
    greatest? result? bound = some result := by
  induction bound with
  | zero =>
    obtain rfl : number = 0 := Nat.le_zero.mp bounded
    exact here
  | succ bound ih =>
    rcases Nat.lt_or_ge bound number with last | below
    · obtain rfl : number = bound + 1 := by omega
      rw [greatest?, here, Option.some_or]
    · rw [greatest?, above _ (Nat.lt_succ_of_le below) (Nat.le_refl _), Option.none_or]
      exact ih below fun other more bounded =>
        above other more (Nat.le_succ_of_le bounded)

/-- The last place of a sign is the greatest one, if there is a result only where the sign is. -/
theorem greatest?_lastSign {sign : Char} {front back : Text} (absent : sign ∉ back)
    (elsewhere : ∀ number, (front ++ sign :: back)[number]? ≠ some sign → result? number = none)
    (bounded : front.length ≤ bound) (here : result? front.length = some result) :
    greatest? result? bound = some result := by
  refine greatest?_eq_some front.length bounded here fun other more _ => elsewhere other ?_
  obtain ⟨index, rfl⟩ : ∃ index, other = front.length + (index + 1) :=
    ⟨other - (front.length + 1), by omega⟩
  rw [getElem?_append_right (by omega), Nat.add_sub_cancel_left, getElem?_cons_succ]
  exact fun isSign => absent (mem_of_getElem? isSign)

end

theorem drop_blankLength (text : Text) : text.drop (blankLength text) = text.dropWhile isBlank :=
  drop_length_takeWhile isBlank text

theorem lineLength_append {line rest : Text} (oneLine : '\n' ∉ line) :
    lineLength (line ++ '\n' :: rest) = line.length := by
  have inLine : ∀ c ∈ line, (c != '\n') = true := by
    intro c member
    simpa using fun same : c = '\n' => oneLine (same ▸ member)
  rw [lineLength, takeWhile_append_cons inLine (by decide)]

theorem blankLength_append {blanks text : Text} (blank : ∀ c ∈ blanks, isBlank c)
    (starts : ∀ c ∈ text.head?, isBlank c = false) :
    blankLength (blanks ++ text) = blanks.length := by
  rw [blankLength, takeWhile_append_of_head? blank starts]

section

variable {name arguments ending rest : Text}

/-- A call is cut at its last opening and at its last closing parenthesis. -/
theorem callLengths?_call (notEmpty : name ≠ []) (nameInLine : '\n' ∉ name)
    (argumentsInLine : '\n' ∉ arguments) (endingInLine : '\n' ∉ ending)
    (noOpening : '(' ∉ arguments) (endingNotOpening : '(' ∉ ending)
    (endingNotClosing : ')' ∉ ending) :
    callLengths? (name ++ '(' :: (arguments ++ ')' :: (ending ++ '\n' :: rest))) =
      some ⟨name.length, arguments.length⟩ := by
  have regrouped : name ++ '(' :: (arguments ++ ')' :: (ending ++ '\n' :: rest)) =
      (name ++ '(' :: (arguments ++ ')' :: ending)) ++ '\n' :: rest := by
    simp
  have oneLine : '\n' ∉ name ++ '(' :: (arguments ++ ')' :: ending) := by
    simp [nameInLine, argumentsInLine, endingInLine]
  have behind : ∀ index, (name ++ '(' :: (arguments ++ ')' :: ending))[name.length + 1 + index]? =
      (arguments ++ ')' :: ending)[index]? := by
    intro index
    rw [Nat.add_assoc, getElem?_append_right (Nat.le_add_right _ _), Nat.add_sub_cancel_left,
      Nat.add_comm, getElem?_cons_succ]
  rw [callLengths?, regrouped, lineLength_append oneLine, take_left]
  refine greatest?_lastSign (by simp [noOpening, endingNotOpening])
    (fun number other => if_neg fun opening => other opening.2) (by simp) ?_
  have nameLength : name.length ≠ 0 := by simpa using notEmpty
  rw [if_pos ⟨nameLength, by simp⟩]
  simp only [behind]
  refine @greatest?_lastSign _ _ _ _ ')' arguments ending endingNotClosing
    (fun _ other => if_neg other) ?_ ?_
  · simp only [length_append, length_cons]
    omega
  · simp

theorem spacedCallLengths?_call {blanks text : Text} {call : CallLengths}
    (blank : ∀ c ∈ blanks, isBlank c) (starts : ∀ c ∈ text.head?, isBlank c = false)
    (isCall : callLengths? text = some call) :
    spacedCallLengths? (blanks ++ text) = some (blanks.length, call) := by
  rw [spacedCallLengths?, blankLength_append blank starts]
  refine greatest?_eq_some blanks.length (Nat.le_refl _) ?_ (fun other more bounded => by omega)
  rw [drop_left, isCall]
  rfl

section

variable (below : ∀ c ∈ (rest.dropWhile isBlank).head?, c ≠ '=')

include below

variable {line : Text}

theorem head_ne_equals (noEquals : '=' ∉ line) :
    ∀ c ∈ ((line ++ '\n' :: rest).dropWhile isBlank).head?, c ≠ '=' := by
  induction line with
  | nil =>
    rw [nil_append, dropWhile_cons_of_pos (by decide)]
    exact below
  | cons first line ih =>
    rw [cons_append]
    by_cases blank : isBlank first
    · rw [dropWhile_cons_of_pos blank]
      exact ih fun member => noEquals (by simp [member])
    · rw [dropWhile_cons_of_neg blank]
      rintro c member rfl
      obtain rfl : first = '=' := by simpa using member
      exact noEquals mem_cons_self

omit below in
theorem assignedCall_eq_none {text : Text} {outputs : Nat}
    (next : ∀ c ∈ ((text.drop outputs).dropWhile isBlank).head?, c ≠ '=') :
    (if outputs = 0 then none
      else
        let afterOutputs := text.drop outputs
        let beforeEquals := blankLength afterOutputs
        match afterOutputs.drop beforeEquals with
        | '=' :: rest =>
          (spacedCallLengths? rest).map fun (afterEquals, call) =>
            ((⟨outputs, beforeEquals, afterEquals⟩ : OutputLengths), call)
        | _ => none) = none := by
  split
  · rfl
  · dsimp only
    rw [drop_blankLength]
    split
    · rename_i equals
      exact absurd rfl (next '=' (by simp [equals]))
    · rfl

theorem assignedCallLengths?_eq_none (oneLine : '\n' ∉ line) (noEquals : '=' ∉ line) :
    assignedCallLengths? (line ++ '\n' :: rest) = none := by
  rw [assignedCallLengths?, lineLength_append oneLine]
  refine greatest?_eq_none fun outputs bounded => assignedCall_eq_none ?_
  rw [drop_append_of_le_length bounded]
  exact head_ne_equals below fun member => noEquals (mem_of_mem_drop member)

/-- Outputs end at the only equals sign. -/
theorem assignedCallLengths?_outputs {outputs : Text} {afterEquals : Nat} {call : CallLengths}
    (notEmpty : outputs ≠ []) (outputsInLine : '\n' ∉ outputs) (oneLine : '\n' ∉ line)
    (noEquals : '=' ∉ line)
    (isCall : spacedCallLengths? (line ++ '\n' :: rest) = some (afterEquals, call)) :
    assignedCallLengths? (outputs ++ '=' :: (line ++ '\n' :: rest)) =
      some (⟨outputs.length, 0, afterEquals⟩, call) := by
  have regrouped : outputs ++ '=' :: (line ++ '\n' :: rest) =
      (outputs ++ '=' :: line) ++ '\n' :: rest := by
    simp
  have inLine : '\n' ∉ outputs ++ '=' :: line := by
    simp [outputsInLine, oneLine]
  have length : lineLength (outputs ++ '=' :: (line ++ '\n' :: rest)) =
      outputs.length + 1 + line.length := by
    rw [regrouped, lineLength_append inLine, length_append, length_cons]
    omega
  rw [assignedCallLengths?, length]
  refine greatest?_eq_some outputs.length (by omega) ?_ ?_
  · have noBlanks : blankLength ('=' :: (line ++ '\n' :: rest)) = 0 := rfl
    rw [if_neg (by simpa using notEmpty)]
    simp only [drop_left, noBlanks, drop_zero, isCall, Option.map_some]
  · intro other more bounded
    refine assignedCall_eq_none ?_
    have dropped : (outputs ++ '=' :: (line ++ '\n' :: rest)).drop other =
        line.drop (other - (outputs.length + 1)) ++ '\n' :: rest := by
      have shifted : other = outputs.length + (1 + (other - (outputs.length + 1))) := by omega
      rw [shifted, ← drop_drop, drop_left, ← drop_drop, drop_succ_cons,
        drop_zero, drop_append_of_le_length (by omega)]
      congr 2
      omega
    rw [dropped]
    exact head_ne_equals below fun member => noEquals (mem_of_mem_drop member)

end

end

def HeadLengths.front (head : HeadLengths) : List (TokenKind × Nat) :=
  let outputs := match head.outputs with
    | none => []
    | some found =>
      [(.text, found.outputs), (.whitespace, found.beforeEquals), (.punctuation, 1),
       (.whitespace, found.afterEquals)]
  (.whitespace, head.blanks) :: outputs ++
    [(.functionName, head.call.name), (.punctuation, 1), (.text, head.call.arguments),
     (.punctuation, 1)]

/-- Behind a head only the blanks below it are taken. -/
theorem headWithCall_of_headLengths? {text : Text} {head : HeadLengths} (before : Option Char)
    (found : headLengths? text = some head) :
    ∃ step, LexRule.headWithCall before text = some step ∧ step.mode = .code ∧
      step.pieces =
        head.front ++ [(.whitespace, blankLength (text.drop (piecesLength head.front)))] := by
  rw [LexRule.headWithCall, found]
  exact ⟨_, rfl, rfl, rfl⟩

theorem lexFrom_keyword {indent : Text} (isIndents : ∀ c ∈ indent, isIndent c) {next : Char}
    (spaced : isBlank next || next == '[') (rest : Text) :
    lexFrom .code none (indent ++ (("function" : Text) ++ next :: rest)) =
      ⟨.keyword, indent ++ "function"⟩ :: lexFrom .functionHead (some 'n') (next :: rest) := by
  have isSign : ∀ c ∈ indent, c = ' ' ∨ c = '\t' :=
    fun c member => by simpa [isIndent] using isIndents c member
  have blank : ∀ c ∈ indent, isBlank c := by
    intro c member
    rcases isSign c member with rfl | rfl
    · decide
    · decide
  have fills : Fills (LexStep.single .keyword (indent.length + 7) .functionHead).pieces
      (indent ++ "function") [⟨.keyword, indent ++ "function"⟩] := by
    have whole := @Fills.piece .keyword (indent ++ "function") _ _ _ (by simp) .nil
    rw [append_nil, length_append] at whole
    exact whole
  have blanks : blankLength (indent ++ (("function" : Text) ++ next :: rest)) = indent.length :=
    blankLength_append blank (by simpa using (by decide : isBlank 'f' = false))
  have keyword : LexRule.functionKeyword none (indent ++ (("function" : Text) ++ next :: rest)) =
      some (.single .keyword (indent.length + 7) .functionHead) := by
    rw [LexRule.functionKeyword]
    simp only [blanks, drop_left, Text.afterStart?_append, spaced]
    rfl
  have applies : (LexMode.code.rules.findSome? fun rule => rule none
      (indent ++ (("function" : Text) ++ next :: rest))) =
      some (.single .keyword (indent.length + 7) .functionHead) := by
    have noComment : ∀ rule ∈ [LexRule.shellCommand, LexRule.blockCommentOpening,
        LexRule.lineComment],
        rule none (indent ++ (("function" : Text) ++ next :: rest)) = none := by
      simp only [forall_mem_cons]
      cases indent with
      | nil => exact ⟨rfl, rfl, rfl, by simp⟩
      | cons c indent =>
        rcases isSign c mem_cons_self with rfl | rfl
        · exact ⟨rfl, rfl, rfl, by simp⟩
        · exact ⟨rfl, rfl, rfl, by simp⟩
    simp only [forall_mem_cons] at noComment
    simp only [LexMode.rules, findSome?_cons, noComment, keyword]
  rw [← append_assoc] at applies ⊢
  rw [lexFrom_of_fills applies fills, getLast?_append]
  rfl

end MatlabDocs
