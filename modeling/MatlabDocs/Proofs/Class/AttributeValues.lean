import MatlabDocs.Proofs.Class.BareAttributes
import MatlabDocs.Proofs.Token.LineTokens

/-!
# The values of attributes

A value is written as a word, as the name of a meta class, as quoted text, as a cell of meta
classes or as a truth value.  Each form has its text and its tokens, and within a line the text
is cut into the tokens.  All forms but the last are read as they are written.
-/

namespace MatlabDocs

open List

def parted {α : Type} (sign : α) : List (List α) → List α
  | [] => []
  | first :: others => first ++ others.flatMap (sign :: ·)

/-- The value of an attribute as it is written; a cell gives the blanks in front of each name. -/
inductive WrittenValue where
  | word (code : CodeWord) (isName : code.kind = .name)
  | metaClass (name : DottedName)
  | quoted (text : Text) (closed : '\x27' ∉ text) (inLine : '\n' ∉ text)
  | cell (items : List (List IndentToken × DottedName))
  | truth (value : Bool)

namespace WrittenValue

def truthText (value : Bool) : Text :=
  if value then "true" else "false"

def itemText (item : List IndentToken × DottedName) : Text :=
  indentText item.1 ++ '?' :: item.2.text

def itemTokens (item : List IndentToken × DottedName) : List Token :=
  item.1.unattach ++ ⟨.text, "?"⟩ :: item.2.tokens

def text : WrittenValue → Text
  | word code _ => code.text
  | metaClass name => '?' :: name.text
  | quoted text _ _ => '\x27' :: (text ++ ['\x27'])
  | cell items => '{' :: (parted ',' (items.map itemText) ++ ['}'])
  | truth value => truthText value

def tokens : WrittenValue → List Token
  | word code _ => [code.token]
  | metaClass name => ⟨.text, "?"⟩ :: name.tokens
  | quoted text _ _ => [⟨.string, ['\x27']⟩, ⟨.string, text ++ ['\x27']⟩]
  | cell items => ⟨.punctuation, "\x7b"⟩ ::
      (parted ⟨.punctuation, ","⟩ (items.map itemTokens) ++ [⟨.punctuation, "\x7d"⟩])
  | truth value => [⟨.builtinName, truthText value⟩]

def value : WrittenValue → AttributeValue
  | word code _ => .word code.text
  | metaClass name => .word ('?' :: name.text)
  | quoted text _ _ => .word text
  | cell items => .items (items.map fun item => '?' :: item.2.text)
  | truth value => .flag value

def isTruth : WrittenValue → Bool
  | truth _ => true
  | _ => false

end WrittenValue

theorem lineFeed_not_mem_parted {pieces : List Text} (oneLine : ∀ piece ∈ pieces, '\n' ∉ piece) :
    '\n' ∉ parted ',' pieces := by
  cases pieces with
  | nil => exact not_mem_nil
  | cons first others =>
    obtain ⟨here, later⟩ := forall_mem_cons.mp oneLine
    simp only [parted, mem_append, mem_flatMap, mem_cons, not_or, not_exists, not_and]
    exact ⟨here, fun piece member => ⟨by decide, later piece member⟩⟩

/-! ## Lexing -/

section

variable {before : Char} {rest : Text}

section

variable {α : Type} {pieceText : α → Text} {pieceTokens : α → List Token}
  (ends : EndsWord rest)
include ends

theorem head?_commaPieces (pieces : List α) :
    ∀ c ∈ ((pieces.flatMap fun piece => ',' :: pieceText piece) ++ rest).head?,
      isWord c = false := by
  cases pieces with
  | nil => exact ends
  | cons next others => simp [isWord, isAsciiWord]

variable {pieces : List α}
  (lexed : ∀ piece ∈ pieces, ∀ {before : Char} {rest : Text}, before ≠ '\n' →
    EndsWord rest →
    LexedAs before (pieceText piece) (pieceTokens piece) rest)
include lexed

private theorem lexedAs_commaPieces :
    LexedAs before (pieces.flatMap fun piece => ',' :: pieceText piece)
      (pieces.flatMap fun piece => ⟨.punctuation, ","⟩ :: pieceTokens piece) rest := by
  induction pieces generalizing before with
  | nil => exact LexedAs.nil before rest
  | cons next others ih =>
    obtain ⟨nextLexed, lexed⟩ := forall_mem_cons.mp lexed
    have comma := @lexedAs_bracket before ((pieceText next ++
      others.flatMap fun piece => ',' :: pieceText piece) ++ rest) ',' (by simp)
    have piece := @nextLexed ',' ((others.flatMap fun piece => ',' :: pieceText piece) ++ rest)
      (by decide) (head?_commaPieces ends others)
    exact comma.append (piece.append (ih lexed))

theorem lexedAs_parted (inLine : before ≠ '\n') :
    LexedAs before (parted ',' (pieces.map pieceText))
      (parted ⟨.punctuation, ","⟩ (pieces.map pieceTokens)) rest := by
  cases pieces with
  | nil => exact LexedAs.nil before rest
  | cons first others =>
    obtain ⟨firstLexed, lexed⟩ := forall_mem_cons.mp lexed
    have front := @firstLexed before ((others.flatMap fun piece => ',' :: pieceText piece) ++ rest)
      inLine (head?_commaPieces ends others)
    simpa [parted, flatMap_map] using front.append (lexedAs_commaPieces ends lexed)

end

namespace WrittenValue

private theorem lineFeed_not_mem_itemText (item : List IndentToken × DottedName) :
    '\n' ∉ itemText item := by
  simp only [itemText, mem_append, mem_cons, not_or]
  exact ⟨lineFeed_not_mem_indentText item.1, by decide, item.2.lineFeed_not_mem_text⟩

variable (value : WrittenValue)

theorem lineFeed_not_mem_text : '\n' ∉ value.text := by
  cases value with
  | word code => exact code.lineFeed_not_mem_text
  | metaClass name => simpa [text] using name.lineFeed_not_mem_text
  | quoted text _ inLine => simpa [WrittenValue.text] using inLine
  | cell items =>
    have inner : '\n' ∉ parted ',' (items.map itemText) := by
      apply lineFeed_not_mem_parted
      intro piece member
      obtain ⟨item, _, rfl⟩ := mem_map.mp member
      exact lineFeed_not_mem_itemText item
    simpa [text] using inner
  | truth value => cases value <;> decide

theorem lexedAs_metaClass (name : DottedName) (ends : EndsWord rest) :
    LexedAs before ('?' :: name.text) (⟨.text, "?"⟩ :: name.tokens) rest := by
  have inLine : '?' ≠ '\n' := by decide
  exact lexedAs_question.append (name.lexedAs inLine ends)

def truthWord (value : Bool) : CodeWord :=
  ⟨truthText value, by cases value <;> decide⟩

theorem truthWord_kind (value : Bool) : (truthWord value).kind = .builtinName := by
  cases value <;> decide

theorem lexedAs (inLine : before ≠ '\n') (free : LexRule.endsOperand (some before) = false)
    (ends : EndsWord rest) : LexedAs before value.text value.tokens rest := by
  cases value with
  | word code => exact code.lexedAs inLine ends
  | metaClass name => exact lexedAs_metaClass name ends
  | quoted text closed => exact lexedAs_quoted free closed
  | cell items =>
    have opening := @lexedAs_bracket before (parted ',' (items.map itemText) ++ ['}'] ++ rest)
      '{' (by simp)
    have inner := @lexedAs_parted '{' (['}'] ++ rest) _ itemText itemTokens
      (by simp [isWord, isAsciiWord]) items
      (fun item _ _ _ inLine ends =>
        (lexedAs_indent inLine item.1 _).append (lexedAs_metaClass item.2 ends)) (by decide)
    have closing := @lexedAs_bracket ((parted ',' (items.map itemText)).getLastD '{') rest '}'
      (by simp)
    exact opening.append (inner.append closing)
  | truth value =>
    have word := (truthWord value).lexedAs inLine ends
    rwa [CodeWord.token, truthWord_kind] at word

theorem head?_text (rest : Text) : ∃ c ∈ (value.text ++ rest).head?, c ≠ '=' := by
  cases value with
  | word code =>
    obtain ⟨first, tail, text, ascii, _⟩ := code.exists_text_eq
    refine ⟨first, ?_, ne_of_test ascii (by decide)⟩
    rw [WrittenValue.text, text]
    rfl
  | metaClass name => exact ⟨'?', rfl, by decide⟩
  | quoted text => exact ⟨'\x27', rfl, by decide⟩
  | cell items => exact ⟨'{', rfl, by decide⟩
  | truth value => cases value <;> exact ⟨_, rfl, by decide⟩

end WrittenValue

end

/-! ## Reading -/

theorem WrittenValue.exists_eq_truth {value : WrittenValue} (isTruth : value.isTruth) :
    ∃ truth, value = .truth truth := by
  cases value with
  | truth value => exact ⟨value, rfl⟩
  | _ => cases isTruth

theorem WrittenValue.exists_tokens_eq (value : WrittenValue) :
    ∃ first others, value.tokens = first :: others ∧ first.isIndent = false := by
  cases value with
  | word code => exact ⟨_, _, rfl, code.isIndent_token⟩
  | metaClass name => exact ⟨_, _, rfl, by decide⟩
  | quoted text => exact ⟨_, _, rfl, by decide⟩
  | cell items => exact ⟨_, _, rfl, by decide⟩
  | truth value => exact ⟨_, _, rfl, by simp [Token.isIndent]⟩

namespace ClassState

variable {position : Nat} {definition : ClassDef} {notices : List Notice}
variable {name : Text} {found : Attributes}

theorem isWordPart_of_mem_tokens (dotted : DottedName) :
    ∀ token ∈ dotted.tokens, isWordPart token := by
  intro token member
  rcases dotted.cases_of_mem_tokens member with rfl | ⟨word, rfl⟩
  · decide
  · simp [isWordPart]

theorem not_isPunctuation_of_mem_tokens (dotted : DottedName) {sign : Text} (notDot : sign ≠ ".") :
    ∀ token ∈ dotted.tokens, token.isPunctuation sign = false := by
  intro token member
  rcases dotted.cases_of_mem_tokens member with rfl | ⟨word, rfl⟩
  · simpa [Token.isPunctuation] using notDot.symm
  · exact word.isPunctuation_token sign

/-- A word or a meta class is read up to the token behind it, which is passed too unless it
closes the list. -/
theorem readAttributeValue_word {first stop : Token} {others rest : List Token}
    (opens : first.kind = .name ∨ first = ⟨.text, "?"⟩) (notTrue : first ≠ ⟨.name, "true"⟩)
    (notFalse : first ≠ ⟨.name, "false"⟩) (parts : ∀ token ∈ others, isWordPart token)
    (stops : isWordPart stop = false) :
    readAttributeValue name found
        ⟨position, first :: (others ++ stop :: rest), definition, notices⟩ =
      .ok (found.insert name (.word (Token.concat (first :: others))),
        if stop.isPunctuation ")" then
          ⟨position + (others.length + 1), stop :: rest, definition, notices⟩
        else ⟨position + (others.length + 1 + 1), rest, definition, notices⟩) := by
  have isOpening : (first.kind == .name || first == ⟨.text, "?"⟩) = true := by
    simpa using opens
  have isTrue : (first == ⟨.name, "true"⟩) = false := by simpa using notTrue
  have isFalse : (first == ⟨.name, "false"⟩) = false := by simpa using notFalse
  have counted : count ⟨position + 1, others ++ stop :: rest, definition, notices⟩ isWordPart =
      .ok others.length := by
    rw [count, countWhile?_append_cons parts stops]
  have taken : (first :: (others ++ stop :: rest)).take (others.length + 1) = first :: others := by
    simp
  have ended : advance ⟨position, first :: (others ++ stop :: rest), definition, notices⟩
      (others.length + 1) =
        ⟨position + (others.length + 1), stop :: rest, definition, notices⟩ := by
    simp [advance]
  rw [readAttributeValue]
  simp only [peek_cons, Reads.ok_bind, isTrue, isFalse, isOpening, Bool.false_eq_true, if_false,
    if_true, advance_one, counted, taken, ended]
  rfl

theorem readItems_item (item : List IndentToken × DottedName) (items : List Text) {stop : Token}
    (rest : List Token)
    (stops : stop = ⟨.punctuation, ","⟩ ∨ stop = ⟨.punctuation, "\x7d"⟩) :
    readItems items ⟨position, WrittenValue.itemTokens item ++ stop :: rest, definition, notices⟩ =
      readItems (items ++ ['?' :: item.2.text])
        (if stop.isPunctuation "," then
          ⟨position + ((WrittenValue.itemTokens item).length + 1), rest, definition, notices⟩
        else
          ⟨position + (WrittenValue.itemTokens item).length, stop :: rest, definition, notices⟩)
      := by
  obtain ⟨indent, dotted⟩ := item
  let run : List Token := ⟨.text, "?"⟩ :: dotted.tokens
  have shape : WrittenValue.itemTokens (indent, dotted) ++ stop :: rest =
      indent.unattach ++ (run ++ stop :: rest) := append_assoc ..
  have length : (WrittenValue.itemTokens (indent, dotted)).length = indent.length + run.length := by
    simp [WrittenValue.itemTokens, run]
  obtain ⟨first, notClosing, peeked⟩ : ∃ first, first.isPunctuation "\x7d" = false ∧
      peek ⟨position, indent.unattach ++ (run ++ stop :: rest), definition, notices⟩ = .ok first :=
    exists_peek (not_isPunctuation_of_mem_unattach indent _) fun _ => by decide
  have skipped : skipIndent
      ⟨position, indent.unattach ++ (run ++ stop :: rest), definition, notices⟩ =
        .ok ⟨position + indent.length, run ++ stop :: rest, definition, notices⟩ :=
    skipIndent_append_cons indent (by decide)
  have passes : ∀ token ∈ run,
      (!token.isPunctuation "," && !token.isPunctuation "\x7d") = true := by
    refine forall_mem_cons.mpr ⟨by decide, fun token member => ?_⟩
    rw [not_isPunctuation_of_mem_tokens dotted (by decide) token member,
      not_isPunctuation_of_mem_tokens dotted (by decide) token member]
    rfl
  have stopsItem : (!stop.isPunctuation "," && !stop.isPunctuation "\x7d") = false := by
    rcases stops with rfl | rfl <;> decide
  have concat : Token.concat run = '?' :: dotted.text := by
    rw [← dotted.concat_tokens]
    rfl
  rw [shape, length, readItems]
  simp only [peeked, Reads.ok_bind, notClosing, Bool.false_eq_true, if_false, skipped, count,
    countWhile?_append_cons passes stopsItem, take_left, concat, advance_append, peek_cons,
    advance_one, reduceCtorEq, Nat.add_assoc]
  rw [progressing_of_lt]
  rw [advance_append, advance_one]
  split <;> simp only [run, length_append, length_cons] <;> omega

private theorem readItems_cell (cell : List (List IndentToken × DottedName)) (items : List Text)
    (rest : List Token) :
    readItems items ⟨position, parted ⟨.punctuation, ","⟩ (cell.map WrittenValue.itemTokens) ++
        ⟨.punctuation, "\x7d"⟩ :: rest, definition, notices⟩ =
      .ok (items ++ cell.map fun item => '?' :: item.2.text,
        ⟨position + ((parted ⟨.punctuation, ","⟩ (cell.map WrittenValue.itemTokens)).length + 1),
          rest, definition, notices⟩) := by
  have closed : ∀ position items, readItems items
      ⟨position, ⟨.punctuation, "\x7d"⟩ :: rest, definition, notices⟩ =
        .ok (items, ⟨position + 1, rest, definition, notices⟩) := by
    intro position items
    rw [readItems]
    rfl
  cases cell with
  | nil => simpa [parted] using closed position items
  | cons first others =>
    simp only [map_cons, parted, flatMap_map, append_assoc]
    induction others generalizing first position items with
    | nil =>
      rw [flatMap_nil, nil_append, readItems_item first items rest (.inr rfl),
        if_neg (by decide), closed]
      simp [Nat.add_assoc]
    | cons next others ih =>
      rw [flatMap_cons, cons_append, cons_append, append_assoc,
        readItems_item first items _ (.inl rfl), if_pos (by decide), ih]
      simp only [append_assoc, map_cons, length_append, length_cons, cons_append, nil_append]
      congr 3
      omega

theorem readAttributeValue_cell (cell : List (List IndentToken × DottedName))
    (rest : List Token) :
    readAttributeValue name found
        ⟨position, (WrittenValue.cell cell).tokens ++ rest, definition, notices⟩ =
      .ok (found.insert name (WrittenValue.cell cell).value,
        ⟨position + (WrittenValue.cell cell).tokens.length, rest, definition, notices⟩) := by
  have shape : (WrittenValue.cell cell).tokens ++ rest = ⟨.punctuation, "\x7b"⟩ ::
      (parted ⟨.punctuation, ","⟩ (cell.map WrittenValue.itemTokens) ++
        ⟨.punctuation, "\x7d"⟩ :: rest) := by
    simp [WrittenValue.tokens]
  have length : (WrittenValue.cell cell).tokens.length =
      1 + ((parted ⟨.punctuation, ","⟩ (cell.map WrittenValue.itemTokens)).length + 1) := by
    simp only [WrittenValue.tokens, length_cons, length_append, length_nil]
    omega
  rw [readAttributeValue, shape, length]
  simp only [peek_cons, Reads.ok_bind, advance_one, readItems_cell]
  simp [Token.isPunctuation, WrittenValue.value, Nat.add_assoc]
  rfl

theorem readAttributeValue_quoted {text : Text} (closed : '\x27' ∉ text) (inLine : '\n' ∉ text)
    (rest : List Token) :
    readAttributeValue name found
        ⟨position, (WrittenValue.quoted text closed inLine).tokens ++ rest, definition, notices⟩ =
      .ok (found.insert name (.word text), ⟨position + 2, rest, definition, notices⟩) := by
  have isQuote : ∀ c ∈ ['\x27'], (c == '\x27') = true := by simp
  have kept : ∀ c ∈ text, (c == '\x27') = false := by
    intro c member
    simpa using fun same : c = '\x27' => closed (same ▸ member)
  have trimmed : Text.trim (· == '\x27') (['\x27'] ++ ['\x27'] ++ (text ++ ['\x27'])) = text := by
    by_cases empty : text = []
    · subst empty
      decide
    · exact Text.trim_append (forall_mem_append.mpr ⟨isQuote, isQuote⟩) isQuote empty
        (fun c first => kept c (mem_of_mem_head? first))
        (fun c last => kept c (mem_of_getLast? last))
  have found_eq : found.insert name (.word text) = found.insert name (.word
      (Text.trim (· == '\x27') (['\x27'] ++ ['\x27'] ++ (text ++ ['\x27'])))) := by
    rw [trimmed]
  rw [readAttributeValue, found_eq]
  rfl

end ClassState

end MatlabDocs
