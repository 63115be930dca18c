import MatlabDocs.Proofs.Token.SpacedHeads

/-!
# Tokens within a line

Behind a character of the same line, what a piece of code is cut into depends on little else: a
blank and most signs are tokens of their own, a word is one token if no word character follows
it, and quoted text is closed by the next quote.  `LexedAs` states this of one piece, and pieces
are put together from left to right.
-/

namespace MatlabDocs

open List LexMode LexRule

/-- Behind this character of plain code the text is cut into just these tokens. -/
def LexedAs (before : Char) (text : Text) (tokens : List Token) (rest : Text) : Prop :=
  lexFrom .code (some before) (text ++ rest) =
    tokens ++ lexFrom .code (some (text.getLastD before)) rest

theorem getLastD_append (first second : Text) (before : Char) :
    (first ++ second).getLastD before = second.getLastD (first.getLastD before) := by
  simp only [getLastD_eq_getLast?, getLast?_append]
  cases second.getLast? <;> rfl

variable {before : Char} {rest : Text} (indent : List IndentToken)

theorem getLastD_ne {sign : Char} {text : Text} (front : before ≠ sign) (absent : sign ∉ text) :
    text.getLastD before ≠ sign := by
  rw [getLastD_eq_getLast?]
  cases last : text.getLast? with
  | none => exact front
  | some c =>
    rintro rfl
    exact absent (mem_of_getLast? last)

theorem LexedAs.nil (before : Char) (rest : Text) : LexedAs before [] [] rest :=
  rfl

theorem LexedAs.append {first second : Text} {tokens others : List Token}
    (front : LexedAs before first tokens (second ++ rest))
    (back : LexedAs (first.getLastD before) second others rest) :
    LexedAs before (first ++ second) (tokens ++ others) rest := by
  unfold LexedAs at front back ⊢
  rw [append_assoc, front, back, getLastD_append, append_assoc]

section

variable {before : Char} {rest : Text}

variable {more : Nat} {text : Text} {kind : TokenKind}

/-- A rule that takes the whole text as one piece gives one token. -/
theorem lexFrom_of_single {behind : Option Char} (length : text.length = more + 1)
    (applies : (code.rules.findSome? fun rule => rule behind (text ++ rest)) =
      some (.single kind more .code)) :
    lexFrom .code behind (text ++ rest) = ⟨kind, text⟩ :: lexFrom .code text.getLast? rest := by
  have notEmpty : text ≠ [] := ne_nil_of_length_eq_add_one length
  have fills : Fills (LexStep.single kind more .code).pieces text [⟨kind, text⟩] := by
    have whole := @Fills.piece kind text _ _ _ notEmpty .nil
    rwa [append_nil, length] at whole
  exact lexFrom_of_fills applies fills

theorem lexedAs_of_single (length : text.length = more + 1)
    (applies : (code.rules.findSome? fun rule => rule (some before) (text ++ rest)) =
      some (.single kind more .code)) : LexedAs before text [⟨kind, text⟩] rest := by
  have notEmpty : text ≠ [] := ne_nil_of_length_eq_add_one length
  rw [LexedAs, lexFrom_of_single length applies, getLastD_eq_getLast?,
    getLast?_eq_some_getLast notEmpty]
  rfl

theorem lexedAs_bracket {sign : Char} (isBracket : sign ∈ ['(', ')', '{', '}', ',']) :
    LexedAs before [sign] [⟨.punctuation, [sign]⟩] rest := by
  refine lexedAs_of_single rfl ?_
  simp only [mem_cons, not_mem_nil, or_false] at isBracket
  rcases isBracket with rfl | rfl | rfl | rfl | rfl
  all_goals rfl

theorem lexedAs_equals (single : rest.head? ≠ some '=') :
    LexedAs before ['='] [⟨.punctuation, "="⟩] rest := by
  refine lexedAs_of_single rfl ?_
  cases rest with
  | nil => rfl
  | cons next rest =>
    have different : next ≠ '=' := by simpa using single
    have noComparison : comparison (some before) ('=' :: next :: rest) = none := by
      simp [comparison, different]
    simp only [rules, findSome?_cons, singleton_append, noComparison]
    rfl

theorem lexedAs_ampersand (single : rest.head? ≠ some '&') :
    LexedAs before ['&'] [⟨.operator, "&"⟩] rest := by
  refine lexedAs_of_single rfl ?_
  cases rest with
  | nil => rfl
  | cons next rest =>
    have different : next ≠ '&' := by simpa using single
    have comparing : comparison (some before) ('&' :: next :: rest) =
        some (.single .operator 0 .code) := by
      simp [comparison, different]
    simp only [rules, findSome?_cons, singleton_append, comparing]
    rfl

theorem lexedAs_less : LexedAs before ['<'] [⟨.operator, "<"⟩] rest :=
  lexedAs_of_single rfl rfl

theorem lexedAs_question : LexedAs before ['?'] [⟨.text, "?"⟩] rest :=
  lexedAs_of_single rfl rfl

theorem lexedAs_dot {c : Char} (word : isAsciiWord c) :
    LexedAs before ['.'] [⟨.punctuation, "."⟩] (c :: rest) := by
  have notDot : c ≠ '.' := ne_of_test word (by decide)
  have notCounting : ['*', '^', '\\', '/'].contains c = false := by
    have different : ∀ {sign}, isAsciiWord sign = false → c ≠ sign := ne_of_test word
    simp [different, isAsciiWord]
  have noEllipsis : ellipsis (some before) ('.' :: c :: rest) = none := by
    simp [ellipsis, notDot]
  have noArithmetic : arithmetic (some before) ('.' :: c :: rest) = none := by
    simp only [arithmetic, notCounting, Bool.false_eq_true, if_false]
  refine lexedAs_of_single rfl ?_
  simp only [rules, findSome?_cons, singleton_append, noEllipsis, noArithmetic]
  rfl

end

/-! ## Blanks -/

def indentText (indent : List IndentToken) : Text :=
  Token.concat indent.unattach

theorem isIndent_of_mem_indentText : ∀ c ∈ indentText indent, isIndent c := by
  intro c member
  obtain ⟨token, inIndent, inValue⟩ := mem_flatMap.mp member
  rcases Token.isIndent_iff.mp (isIndent_of_mem_unattach indent token inIndent) with rfl | rfl
  · obtain rfl : c = ' ' := by simpa using inValue
    rfl
  · obtain rfl : c = '\t' := by simpa using inValue
    rfl

theorem lineFeed_not_mem_indentText : '\n' ∉ indentText indent :=
  fun member => absurd (isIndent_of_mem_indentText indent '\n' member) (by decide)

theorem head?_indentText_append (rest : Text) :
    ∀ c ∈ (indentText indent ++ rest).head?, isIndent c ∨ c ∈ rest.head? := by
  intro c first
  cases text : indentText indent with
  | nil =>
    rw [text] at first
    exact .inr first
  | cons blank blanks =>
    rw [text] at first
    obtain rfl : blank = c := by simpa using first
    exact .inl (isIndent_of_mem_indentText indent blank (by simp [text]))

theorem ends_indentText_append (ends : EndsWord rest) : EndsWord (indentText indent ++ rest) := by
  intro c first
  rcases head?_indentText_append indent rest c first with blank | behind
  · have isSign : c = ' ' ∨ c = '\t' := by simpa [isIndent] using blank
    rcases isSign with rfl | rfl <;> decide
  · exact ends c behind

theorem lexedAs_indent (inLine : before ≠ '\n') (indent : List IndentToken) (rest : Text) :
    LexedAs before (indentText indent) indent.unattach rest := by
  induction indent generalizing before with
  | nil => exact LexedAs.nil before rest
  | cons blank indent ih =>
    have first : LexedAs before blank.val.value [blank.val] (indentText indent ++ rest) := by
      have noKeyword := functionKeyword_eq_none inLine
      unfold LexedAs
      rcases Token.isIndent_iff.mp blank.property with isBlank | isTab
      · rw [isBlank]
        exact lexFrom_indent_of_eq_none (by decide) (noKeyword _)
      · rw [isTab]
        exact lexFrom_indent_of_eq_none (by decide) (noKeyword _)
    have stays : '\n' ∉ blank.val.value := by
      rcases Token.isIndent_iff.mp blank.property with isBlank | isTab
      · simp [isBlank]
      · simp [isTab]
    exact first.append (ih (getLastD_ne inLine stays))

/-! ## Words -/

def isCodeWord : Text → Bool
  | [] => false
  | c :: rest => (c.isAlpha || c == '_') && rest.all isWord

def wordKind (word : Text) : TokenKind :=
  if keywords.contains word then .keyword
  else if isBuiltin word then .builtinName
  else .name

/-- A word that starts with a capital letter is a name: all words that are known are small. -/
theorem wordKind_of_isUpper {word : Text} (upper : word.head?.any Char.isUpper) :
    wordKind word = .name := by
  have unknown : ∀ words : List Text, (words.all fun word => !word.head?.any Char.isUpper) →
      words.contains word = false := by
    intro words small
    rw [contains_eq_mem, decide_eq_false_iff_not]
    intro member
    have notUpper := all_eq_true.mp small word member
    simp [upper] at notUpper
  have notBuiltin : isBuiltin word = false := by
    rw [isBuiltin, unknown elementaryFunctions (by decide), unknown specialFunctions (by decide),
      unknown matrixFunctions (by decide)]
    rfl
  rw [wordKind, unknown keywords (by decide), notBuiltin]
  rfl

structure CodeWord where
  text : Text
  wellFormed : isCodeWord text

namespace LexRule

variable {before : Option Char} {c : Char} {rest : Text}

/-- The rules of signs do not apply to a word. -/
theorem eq_none_of_isAsciiWord (word : isAsciiWord c) :
    ∀ rule ∈ [shellCommand, blockCommentOpening, lineComment, ellipsis, comparison, arithmetic,
      punctuation, transpose, doubleQuoted, quoteOpening], rule before (c :: rest) = none := by
  have different : ∀ {sign}, isAsciiWord sign = false → c ≠ sign := ne_of_test word
  have notComparing : ['-', '<', '>', '&', '~', '|'].contains c = false := by
    simp [different, isAsciiWord]
  have notCounting : ['*', '+', '/', '\\'].contains c = false := by
    simp [different, isAsciiWord]
  have notParting : ['[', ']', '(', ')', '{', '}', ':', '@', '.', ',', '=', ';'].contains c =
      false := by
    simp [different, isAsciiWord]
  simp only [forall_mem_cons]
  refine ⟨?shellCommand, ?blockComment, ?lineComment, ?ellipsis, ?comparison, ?arithmetic,
    ?punctuation, ?transpose, ?doubleQuoted, ?quoteOpening, by simp⟩
  case shellCommand => simp [shellCommand, different, isAsciiWord]
  case blockComment => simp [blockCommentOpening, different, isAsciiWord]
  case lineComment => simp [lineComment, different, isAsciiWord]
  case ellipsis => simp [ellipsis, different, isAsciiWord]
  case comparison =>
    unfold comparison
    split
    case h_5 next _ _ _ _ _ same =>
      obtain ⟨rfl, _⟩ := List.cons.inj same
      rw [notComparing, if_neg Bool.false_ne_true]
    case h_6 => rfl
    all_goals
      rename_i same
      exact absurd (List.cons.inj same).1 (different (by decide))
  case arithmetic =>
    unfold arithmetic
    split
    · rename_i same
      exact absurd (List.cons.inj same).1 (different (by decide))
    · rename_i same
      obtain ⟨rfl, _⟩ := List.cons.inj same
      rw [notCounting, if_neg Bool.false_ne_true]
    · rfl
  case punctuation => simp only [punctuation, notParting, Bool.false_eq_true, if_false]
  case transpose => simp [transpose, different, isAsciiWord]
  case doubleQuoted => simp [doubleQuoted, different, isAsciiWord]
  case quoteOpening => simp [quoteOpening, different, isAsciiWord]

end LexRule

theorem not_isDigit_of_initial {c : Char} (initial : c.isAlpha || c == '_') :
    isDigit c = false := by
  have bounds := isAsciiWord_toNat (isAsciiWord_of_initial initial)
  have latin : ¬ 127 < c.toNat := by omega
  have notDecimal : c.isDigit = false := by
    rw [Bool.eq_false_iff]
    intro digit
    have below : c.val.toNat ≤ 57 := of_decide_eq_true (Bool.and_eq_true_iff.mp digit).2
    simp only [Bool.or_eq_true, beq_iff_eq] at initial
    rcases initial with letter | rfl
    · rcases Bool.or_eq_true_iff.mp letter with upper | lower
      · have above : 65 ≤ c.val.toNat := (of_decide_eq_true upper).1
        omega
      · have above : 97 ≤ c.val.toNat := of_decide_eq_true (Bool.and_eq_true_iff.mp lower).1
        omega
    · exact absurd digit (by decide)
  simp [isDigit, notDecimal, latin]

namespace CodeWord

variable (word : CodeWord)

def kind : TokenKind :=
  wordKind word.text

def token : Token :=
  ⟨word.kind, word.text⟩

theorem exists_text_eq : ∃ first tail, word.text = first :: tail ∧ isAsciiWord first ∧
    (first.isAlpha || first == '_') ∧ ∀ c ∈ tail, isWord c := by
  obtain ⟨text, wellFormed⟩ := word
  cases text with
  | nil => cases wellFormed
  | cons first tail =>
    obtain ⟨initial, isWord_tail⟩ := (Bool.and_eq_true_iff).mp wellFormed
    exact ⟨first, tail, rfl, isAsciiWord_of_initial initial, initial, all_eq_true.mp isWord_tail⟩

theorem isWord_of_mem : ∀ c ∈ word.text, isWord c := by
  obtain ⟨first, tail, text, ascii, _, isWord_tail⟩ := word.exists_text_eq
  rw [text, forall_mem_cons]
  exact ⟨isWord_of_isAsciiWord ascii, isWord_tail⟩

theorem lineFeed_not_mem_text : '\n' ∉ word.text :=
  fun member => absurd (word.isWord_of_mem '\n' member) (by decide)

theorem findSome?_text {before : Option Char} {rest : Text}
    (noKeyword : functionKeyword before (word.text ++ rest) = none) (ends : EndsWord rest) :
    (code.rules.findSome? fun rule => rule before (word.text ++ rest)) =
      some (.single word.kind (word.text.length - 1) .code) := by
  obtain ⟨first, tail, text, ascii, initial, isWord_tail⟩ := word.exists_text_eq
  have taken : (tail ++ rest).takeWhile isWord = tail := takeWhile_append_of_head? isWord_tail ends
  have isWord_first := isWord_of_isAsciiWord ascii
  have notDigit := not_isDigit_of_initial initial
  have noNumber : number before (first :: (tail ++ rest)) = none := by
    simp only [number, notDigit, Bool.false_eq_true, if_false]
  have named : name before (first :: (tail ++ rest)) = some (.single .name tail.length .code) := by
    simp only [name, initial, if_true, taken]
  have noSign := @eq_none_of_isAsciiWord before first (tail ++ rest) ascii
  simp only [forall_mem_cons] at noSign
  obtain ⟨shell, block, line, ellipsis, comparison, arithmetic, punctuation, transpose, double,
    quote, _⟩ := noSign
  rw [text] at noKeyword ⊢
  rw [cons_append] at noKeyword ⊢
  simp only [rules, findSome?_cons, shell, block, line, noKeyword, knownWord,
    isWord_first, if_true, taken, length_cons, Nat.add_sub_cancel, kind, wordKind, text]
  by_cases keyword : keywords.contains (first :: tail)
  · simp only [keyword, if_true]
  · by_cases builtin : isBuiltin (first :: tail)
    · simp only [keyword, builtin, Bool.false_eq_true, if_true, if_false]
    · simp only [keyword, builtin, Bool.false_eq_true, if_false, ellipsis, comparison, arithmetic,
        punctuation, transpose, noNumber, double, quote, named]

theorem kind_cases : word.kind = .keyword ∨ word.kind = .builtinName ∨ word.kind = .name := by
  unfold kind wordKind
  split
  · exact .inl rfl
  · split
    · exact .inr (.inl rfl)
    · exact .inr (.inr rfl)

@[simp] theorem isPunctuation_token (sign : Text) : word.token.isPunctuation sign = false := by
  rcases word.kind_cases with kind | kind | kind <;>
    simp [Token.isPunctuation, token, kind]

@[simp] theorem isIndent_token : word.token.isIndent = false := by
  rcases word.kind_cases with kind | kind | kind <;>
    simp [Token.isIndent, token, kind]

theorem lexedAs {before : Char} (inLine : before ≠ '\n') {rest : Text} (ends : EndsWord rest) :
    LexedAs before word.text [word.token] rest := by
  obtain ⟨first, tail, text, _⟩ := word.exists_text_eq
  have length : word.text.length = word.text.length - 1 + 1 := by simp [text]
  exact lexedAs_of_single length (word.findSome?_text (functionKeyword_eq_none inLine _) ends)

end CodeWord

/-! ## Dotted names and quoted text -/

/-- Words with dots between them. -/
structure DottedName where
  first : CodeWord
  others : List CodeWord

namespace DottedName

def text (name : DottedName) : Text :=
  name.first.text ++ name.others.flatMap fun word => '.' :: word.text

def tokens (name : DottedName) : List Token :=
  name.first.token :: name.others.flatMap fun word => [⟨.punctuation, "."⟩, word.token]

variable (name : DottedName)

theorem lineFeed_not_mem_text : '\n' ∉ name.text := by
  simp only [text, mem_append, mem_flatMap, mem_cons, not_or, not_exists, not_and]
  refine ⟨name.first.lineFeed_not_mem_text, fun word _ => ⟨by decide, ?_⟩⟩
  exact word.lineFeed_not_mem_text

theorem concat_tokens : Token.concat name.tokens = name.text := by
  obtain ⟨first, others⟩ := name
  have behind : Token.concat (others.flatMap fun word => [⟨.punctuation, "."⟩, word.token]) =
      others.flatMap fun word => '.' :: word.text := by
    induction others with
    | nil => rfl
    | cons word others ih =>
      rw [flatMap_cons, flatMap_cons, ← ih]
      simp [Token.concat, CodeWord.token]
  exact congrArg (first.text ++ ·) behind

theorem cases_of_mem_tokens {token : Token} (member : token ∈ name.tokens) :
    token = ⟨.punctuation, "."⟩ ∨ ∃ word : CodeWord, token = word.token := by
  simp only [tokens, mem_cons, mem_flatMap, not_mem_nil, or_false] at member
  rcases member with first | ⟨word, _, dot | isWord⟩
  · exact .inr ⟨name.first, first⟩
  · exact .inl dot
  · exact .inr ⟨word, isWord⟩

theorem exists_text_eq : ∃ first tail, name.text = first :: tail ∧ isAsciiWord first := by
  obtain ⟨first, tail, text, ascii, _⟩ := name.first.exists_text_eq
  exact ⟨first, _, by rw [DottedName.text, text, cons_append], ascii⟩

theorem lexedAs {before : Char} (inLine : before ≠ '\n') {rest : Text}
    (ends : EndsWord rest) : LexedAs before name.text name.tokens rest := by
  obtain ⟨first, others⟩ := name
  -- The words behind the first are joined on from left to right.
  have behind : ∀ word : CodeWord, ∀ before : Char, before ≠ '\n' →
      LexedAs before (word.text ++ others.flatMap fun word => '.' :: word.text)
        (word.token :: others.flatMap fun word => [⟨.punctuation, "."⟩, word.token]) rest := by
    induction others with
    | nil =>
      intro word before inLine
      simpa using word.lexedAs inLine ends
    | cons next others ih =>
      intro word before inLine
      obtain ⟨initial, tail, text, ascii, _⟩ := next.exists_text_eq
      have inWord := getLastD_ne inLine word.lineFeed_not_mem_text
      have parted : LexedAs (word.text.getLastD before) ['.'] [⟨.punctuation, "."⟩]
          ((next.text ++ others.flatMap fun word => '.' :: word.text) ++ rest) := by
        rw [text]
        exact lexedAs_dot ascii
      have front : LexedAs before word.text [word.token] ((['.'] ++ (next.text ++
          others.flatMap fun word => '.' :: word.text)) ++ rest) :=
        word.lexedAs inLine (by simp [isWord, isAsciiWord])
      exact front.append (parted.append (ih next '.' (by decide)))
  exact behind first before inLine

end DottedName

/-- Where no operand ends, a quote opens text that the next quote closes. -/
theorem lexedAs_quoted {text : Text} (free : endsOperand (some before) = false)
    (closed : '\x27' ∉ text) :
    LexedAs before ('\x27' :: (text ++ ['\x27']))
      [⟨.string, ['\x27']⟩, ⟨.string, text ++ ['\x27']⟩] rest := by
  have passes : ∀ c ∈ text, (c != '\x27') = true := by
    intro c member
    simpa using fun same : c = '\x27' => closed (same ▸ member)
  have opening : (code.rules.findSome? fun rule =>
      rule (some before) (['\x27'] ++ (text ++ ['\x27'] ++ rest))) =
        some (.single .string 0 .quotedText) := by
    have noTranspose :
        LexRule.transpose (some before) ('\x27' :: (text ++ ['\x27'] ++ rest)) = none := by
      simp only [LexRule.transpose, free, Bool.false_eq_true, if_false]
    have opens : quoteOpening (some before) ('\x27' :: (text ++ ['\x27'] ++ rest)) =
        some (.single .string 0 .quotedText) := by
      simp only [quoteOpening, free, Bool.false_eq_true, if_false]
    simp only [rules, findSome?_cons, singleton_append, noTranspose, opens]
    rfl
  have closing : (quotedText.rules.findSome? fun rule =>
      rule (some '\x27') (text ++ ['\x27'] ++ rest)) =
        some (.single .string text.length .code) := by
    have within : (text ++ '\x27' :: rest).contains '\x27' = true := by simp
    have taken : (text ++ '\x27' :: rest).takeWhile (· != '\x27') = text :=
      takeWhile_append_cons passes rfl
    simp only [rules, findSome?_cons, append_assoc, singleton_append,
      quoteClosing, within, taken, if_true]
  have openingFills : Fills (LexStep.single .string 0 .quotedText).pieces ['\x27']
      [⟨.string, ['\x27']⟩] :=
    @Fills.piece .string ['\x27'] _ _ _ (cons_ne_nil _ _) .nil
  have closingFills : Fills (LexStep.single .string text.length .code).pieces
      (text ++ ['\x27']) [⟨.string, text ++ ['\x27']⟩] := by
    have whole := @Fills.piece .string (text ++ ['\x27']) _ _ _ (by simp) .nil
    rwa [append_nil, length_append] at whole
  have last : ('\x27' :: (text ++ ['\x27'])).getLastD before = '\x27' := by
    rw [getLastD_eq_getLast?, ← cons_append, getLast?_concat]
    rfl
  rw [LexedAs, last]
  calc
    lexFrom .code (some before) (['\x27'] ++ (text ++ ['\x27'] ++ rest)) =
        [⟨.string, ['\x27']⟩] ++ lexFrom .quotedText (some '\x27') (text ++ ['\x27'] ++ rest) :=
      lexFrom_of_fills opening openingFills
    _ = [⟨.string, ['\x27']⟩] ++
          ([⟨.string, text ++ ['\x27']⟩] ++ lexFrom .code (some '\x27') rest) := by
      rw [lexFrom_of_fills closing closingFills, getLast?_concat]
      rfl

end MatlabDocs
