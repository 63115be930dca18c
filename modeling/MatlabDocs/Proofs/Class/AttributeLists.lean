import MatlabDocs.Proofs.Class.AttributeValues

/-!
# Attribute lists

An attribute list is written in parentheses, with commas between its attributes and with blanks
and tabs wherever they may stand.  Within a line its text is cut into its tokens, and reading
these ends behind the closing parenthesis with one entry for each name; a name that is written
again keeps its place and takes the new value.  Every value but a truth value is the one that is
written.
-/

namespace MatlabDocs

open List WrittenValue

/-- A value with the sign in front of it and the blanks around it. -/
structure SettingLayout where
  before : List IndentToken
  value : WrittenValue
  after : List IndentToken

def SettingLayout.text (setting : SettingLayout) : Text :=
  '=' :: (indentText setting.before ++ (setting.value.text ++ indentText setting.after))

def SettingLayout.tokens (setting : SettingLayout) : List Token :=
  ⟨.punctuation, "="⟩ ::
    (setting.before.unattach ++ (setting.value.tokens ++ setting.after.unattach))

/-- A known attribute, bare or with a value. -/
structure AttributeItem (known : List Text) extends BareAttribute known where
  setting : Option SettingLayout

/-- An attribute list with the blanks in front of it and behind its opening parenthesis. -/
structure AttributeList (known : List Text) where
  indent : List IndentToken
  inner : List IndentToken
  items : List (AttributeItem known)

variable {known : List Text}

namespace AttributeItem

variable (item : AttributeItem known)

def text : Text :=
  indentText item.before ++ (item.name ++ (indentText item.after ++
    ((item.setting.map SettingLayout.text).getD [])))

def tokens : List Token :=
  item.toBareAttribute.tokens ++ (item.setting.map SettingLayout.tokens).getD []

def written : AttributeValue :=
  match item.setting with
  | none => .flag true
  | some setting => setting.value.value

def isTruth : Bool :=
  match item.setting with
  | none => false
  | some setting => setting.value.isTruth

/-- The value that is read: a truth value of either kind only sets the attribute. -/
def recorded : AttributeValue :=
  if item.isTruth then .flag true else item.written

def behind (before : List IndentToken) : AttributeItem known :=
  { item with before := before }

theorem tokens_behind_append (before : List IndentToken) (more : List Token) :
    (item.behind before).tokens ++ more = before.unattach ++ ⟨.name, item.name⟩ ::
      (item.after.unattach ++ ((item.setting.map SettingLayout.tokens).getD [] ++ more)) := by
  simp [behind, tokens, BareAttribute.tokens]

theorem length_tokens : item.tokens.length =
    item.before.length + (item.behind []).tokens.length := by
  simp only [behind, tokens, BareAttribute.tokens, length_append, length_unattach,
    length_cons, unattach_nil, length_nil]
  omega

end AttributeItem

def BareAttribute.item (bare : BareAttribute known) : AttributeItem known :=
  { bare with setting := none }

theorem BareAttribute.listTokens_eq (list : List (BareAttribute known)) :
    listTokens list = parted ⟨.punctuation, ","⟩ ((list.map item).map AttributeItem.tokens) := by
  have tokens : ∀ bare : BareAttribute known, bare.item.tokens = bare.tokens :=
    fun bare => append_nil bare.tokens
  induction list with
  | nil => rfl
  | cons bare list ih =>
    cases list with
    | nil => simp [listTokens, parted, tokens]
    | cons next list => simp [listTokens, ih, parted, tokens]

namespace AttributeList

variable (list : AttributeList known)

def text : Text :=
  indentText list.indent ++ '(' :: (indentText list.inner ++
    (parted ',' (list.items.map AttributeItem.text) ++ [')']))

def tokens : List Token :=
  list.indent.unattach ++ ⟨.punctuation, "("⟩ :: (list.inner.unattach ++
    (parted ⟨.punctuation, ","⟩ (list.items.map AttributeItem.tokens) ++ [⟨.punctuation, ")"⟩]))

def entries : List (Text × AttributeValue) :=
  list.items.map fun item => (item.name, item.written)

def attributes : Attributes :=
  Table.ofList (list.items.map fun item => (item.name, item.recorded))

end AttributeList

/-! ## Reading -/

namespace ClassState

variable {position : Nat} {definition : ClassDef} {notices : List Notice}
variable {found : Attributes}

/-- Behind a value, blanks are skipped and a comma is passed. -/
def passComma (state : ClassState) : Reads ClassState := do
  let last ← state.skipIndent
  return if (← last.peek).isPunctuation "," then last.advance 1 else last

theorem passComma_append_cons (indent : List IndentToken) {stop : Token} (rest : List Token)
    (stops : stop.isIndent = false) :
    passComma ⟨position, indent.unattach ++ stop :: rest, definition, notices⟩ =
      .ok (if stop.isPunctuation "," then
        ⟨position + (indent.length + 1), rest, definition, notices⟩
      else ⟨position + indent.length, stop :: rest, definition, notices⟩) := by
  rw [passComma, skipIndent_append_cons indent stops]
  rfl

theorem readAttributeList_setting (bare : BareAttribute known) {rest : List Token}
    {start ended after : ClassState} {valued : Attributes}
    (begins : skipIndent ⟨position + bare.tokens.length + 1, rest, definition, notices⟩ = .ok start)
    (read : readAttributeValue bare.name (found.insert bare.name (.flag true)) start =
      .ok (valued, ended))
    (passed : passComma ended = .ok after) (shorter : after.rest.length ≤ rest.length) :
    readAttributeList known found
        ⟨position, bare.tokens ++ ⟨.punctuation, "="⟩ :: rest, definition, notices⟩ =
      readAttributeList known valued after := by
  have progresses : after.rest.length < (bare.tokens ++ ⟨.punctuation, "="⟩ :: rest).length := by
    simp only [length_append, length_cons]
    omega
  have notComma : (TokenKind.punctuation == .builtinName ||
      Token.isPunctuation ⟨.punctuation, "="⟩ ",") = false := by decide
  have isEquals : Token.isPunctuation ⟨.punctuation, "="⟩ "=" = true := by decide
  rw [readAttributeList_name bare found rest (by decide)]
  simp only [notComma, isEquals, Bool.false_eq_true, if_false, if_true, advance_one, begins,
    Reads.ok_bind, read]
  unfold passComma at passed
  cases skipped : ended.skipIndent with
  | error halt =>
    rw [skipped] at passed
    cases passed
  | ok last =>
    rw [skipped, Reads.ok_bind] at passed
    cases peeked : last.peek with
    | error halt =>
      rw [peeked] at passed
      cases passed
    | ok token =>
      rw [peeked] at passed
      obtain rfl := Except.ok.inj passed
      simp only [Reads.ok_bind, peeked]
      rw [progressing_of_lt progresses]

theorem readAttributeValue_truth {name : Text} (value : Bool) (rest : List Token) :
    readAttributeValue name found ⟨position, (truth value).tokens ++ rest, definition, notices⟩ =
      .ok (found, ⟨position, (truth value).tokens ++ rest, definition, notices⟩) := by
  cases value <;> rfl

theorem readAttributeList_builtin (word : Text) (rest : List Token) :
    readAttributeList known found ⟨position, ⟨.builtinName, word⟩ :: rest, definition, notices⟩ =
      readAttributeList known found ⟨position + 1, rest, definition, notices⟩ := by
  have stops : Token.isIndent ⟨.builtinName, word⟩ = false := by simp [Token.isIndent]
  have notClosing : Token.isPunctuation ⟨.builtinName, word⟩ ")" = false := by
    simp [Token.isPunctuation]
  have isBuiltin : (TokenKind.builtinName == .builtinName) = true := rfl
  have notName : (TokenKind.builtinName == .name) = false := rfl
  rw [readAttributeList]
  simp only [peek_cons, Reads.ok_bind, notClosing, skipIndent_cons stops, notName, isBuiltin,
    Bool.false_eq_true, if_false, Bool.false_and, Bool.true_or, if_true, advance_one]
  rw [progressing_of_lt (by simp)]

theorem readAttributeList_blanks (indent : List IndentToken) {stop : Token} (rest : List Token)
    (stops : stop = ⟨.punctuation, ","⟩ ∨ stop = ⟨.punctuation, ")"⟩) :
    readAttributeList known found ⟨position, indent.unattach ++ stop :: rest, definition, notices⟩ =
      readAttributeList known found
        (if stop.isPunctuation "," then
          ⟨position + (indent.length + 1), rest, definition, notices⟩
        else ⟨position + indent.length, stop :: rest, definition, notices⟩) := by
  have notIndent : stop.isIndent = false := by rcases stops with rfl | rfl <;> decide
  have notName : (stop.kind == .name) = false := by rcases stops with rfl | rfl <;> decide
  have notBuiltin : (stop.kind == .builtinName) = false := by
    rcases stops with rfl | rfl <;> decide
  have notEquals : stop.isPunctuation "=" = false := by rcases stops with rfl | rfl <;> decide
  by_cases atEnd : indent = [] ∧ stop = ⟨.punctuation, ")"⟩
  · obtain ⟨rfl, rfl⟩ := atEnd
    rfl
  obtain ⟨first, notClosing, peeked⟩ := @exists_peek position definition notices indent.unattach
    rest stop _ (not_isPunctuation_of_mem_unattach indent ")") fun empty => by
      simpa [Token.isPunctuation, map_eq_nil_iff.mp empty] using atEnd
  rw [readAttributeList]
  simp only [peeked, Reads.ok_bind, notClosing, skipIndent_append_cons indent notIndent, peek_cons,
    notName, Bool.false_eq_true, if_false, Bool.false_and, skipIndent_cons notIndent, notBuiltin,
    Bool.false_or, advance_one, notEquals]
  split
  · rw [progressing_of_lt (by simp only [length_append, length_cons]; omega), Nat.add_assoc]
  · rename_i notComma
    have blanks : 0 < indent.unattach.length := by
      rcases stops with rfl | rfl
      · exact absurd (by decide) notComma
      · rw [length_unattach, length_pos_iff]
        exact fun empty => atEnd ⟨empty, rfl⟩
    rw [progressing_of_lt (by simp only [length_append, length_cons]; omega)]

/-- The reading of a value ends at the blanks and the sign behind it, or it has passed a comma that
stands right behind it. -/
def EndsValue (position : Nat) (after : List IndentToken) (stop : Token) (rest : List Token)
    (definition : ClassDef) (notices : List Notice) (ended : ClassState) : Prop :=
  passComma ended = .ok (if stop.isPunctuation "," then
      ⟨position + (after.length + 1), rest, definition, notices⟩
    else ⟨position + after.length, stop :: rest, definition, notices⟩) ∨
  stop = ⟨.punctuation, ","⟩ ∧ after = [] ∧ ended = ⟨position + 1, rest, definition, notices⟩

section

variable {name : Text} {after : List IndentToken} {stop : Token} {rest : List Token}
variable (stops : stop = ⟨.punctuation, ","⟩ ∨ stop = ⟨.punctuation, ")"⟩)

include stops

theorem EndsValue.behind (position : Nat) : EndsValue position after stop rest definition notices
    ⟨position, after.unattach ++ stop :: rest, definition, notices⟩ := by
  have notIndent : stop.isIndent = false := by rcases stops with rfl | rfl <;> decide
  exact .inl (passComma_append_cons after rest notIndent)

/-- A word or a meta class also passes the token behind it, unless that closes the list. -/
private theorem exists_readAttributeValue_word {first : Token} {others : List Token}
    (opens : first.kind = .name ∨ first = ⟨.text, "?"⟩) (notTrue : first ≠ ⟨.name, "true"⟩)
    (notFalse : first ≠ ⟨.name, "false"⟩) (parts : ∀ token ∈ others, isWordPart token) :
    ∃ ended, readAttributeValue name found ⟨position, (first :: others) ++
        (after.unattach ++ stop :: rest), definition, notices⟩ =
        .ok (found.insert name (.word (Token.concat (first :: others))), ended) ∧
      EndsValue (position + (first :: others).length) after stop rest definition notices ended := by
  cases after with
  | nil =>
    have stopsWord : isWordPart stop = false := by rcases stops with rfl | rfl <;> decide
    refine ⟨_, readAttributeValue_word opens notTrue notFalse parts stopsWord, ?_⟩
    rcases stops with rfl | rfl
    · exact .inr ⟨rfl, rfl, rfl⟩
    · exact .behind (.inr rfl) _
  | cons blank after =>
    have stopsWord : isWordPart blank.val = false := by
      simp [isWordPart, show blank.val.isIndent = true from blank.property]
    have notIndent : stop.isIndent = false := by rcases stops with rfl | rfl <;> decide
    refine ⟨_, readAttributeValue_word opens notTrue notFalse parts stopsWord, .inl ?_⟩
    rw [Token.not_isPunctuation_of_isIndent blank.property, if_neg Bool.false_ne_true]
    refine (passComma_append_cons after rest notIndent).trans ?_
    have sum : ∀ more, position + (others.length + 1 + 1) + more =
        position + (first :: others).length + (1 + more) := by
      intro more
      simp only [length_cons]
      omega
    rw [sum, sum, Nat.add_comm 1, Nat.add_comm 1]
    rfl

private theorem exists_readAttributeValue {value : WrittenValue} (plain : value.isTruth = false) :
    ∃ ended, readAttributeValue name found ⟨position, value.tokens ++
        (after.unattach ++ stop :: rest), definition, notices⟩ =
        .ok (found.insert name value.value, ended) ∧
      EndsValue (position + value.tokens.length) after stop rest definition notices ended := by
  cases value with
  | word code isName =>
    have isWord : code.token.kind = .name := isName
    have different : ∀ truth, code.token ≠ ⟨.name, truthText truth⟩ := by
      intro truth same
      have kind : code.kind = .builtinName := by
        rw [← truthWord_kind truth]
        exact congrArg (wordKind ∘ Token.value) same
      rw [isName] at kind
      cases kind
    have concat : Token.concat [code.token] = code.text := append_nil _
    have read := @exists_readAttributeValue_word position definition notices found name after stop
      rest stops code.token [] (.inl isWord) (different true) (different false) (by simp)
    rwa [concat] at read
  | metaClass dotted =>
    have concat : Token.concat (⟨.text, "?"⟩ :: dotted.tokens) = '?' :: dotted.text := by
      rw [← dotted.concat_tokens]
      rfl
    have read := @exists_readAttributeValue_word position definition notices found name after stop
      rest stops ⟨.text, "?"⟩ dotted.tokens (.inr rfl) (by simp) (by simp)
      (isWordPart_of_mem_tokens dotted)
    rwa [concat] at read
  | quoted text closed inLine =>
    exact ⟨_, readAttributeValue_quoted closed inLine _, .behind stops _⟩
  | cell items => exact ⟨_, readAttributeValue_cell items _, .behind stops _⟩
  | truth value => cases plain

end

/-- Reading a list goes on at the comma or parenthesis behind an attribute; behind a word it may
also have skipped the blanks that follow the comma. -/
theorem readAttributeList_item (item : AttributeItem known) {stop : Token} (rest : List Token)
    (stops : stop = ⟨.punctuation, ","⟩ ∨ stop = ⟨.punctuation, ")"⟩) :
    readAttributeList known found ⟨position, item.tokens ++ stop :: rest, definition, notices⟩ =
      readAttributeList known (found.insert item.name item.recorded)
        (if stop.isPunctuation "," then
          ⟨position + (item.tokens.length + 1), rest, definition, notices⟩
        else ⟨position + item.tokens.length, stop :: rest, definition, notices⟩) ∨
    (stop = ⟨.punctuation, ","⟩ ∧ ∀ (lead : List IndentToken) (word : Text) (more : List Token),
      rest = lead.unattach ++ ⟨.name, word⟩ :: more →
      readAttributeList known found ⟨position, item.tokens ++ stop :: rest, definition, notices⟩ =
        readAttributeList known (found.insert item.name item.recorded)
          ⟨position + (item.tokens.length + 1 + lead.length), ⟨.name, word⟩ :: more, definition,
            notices⟩) := by
  have notIndent : stop.isIndent = false := by rcases stops with rfl | rfl <;> decide
  have notBuiltin : (stop.kind == .builtinName) = false := by
    rcases stops with rfl | rfl <;> decide
  have notEquals : stop.isPunctuation "=" = false := by rcases stops with rfl | rfl <;> decide
  obtain ⟨bare, setting⟩ := item
  cases setting with
  | none =>
    refine .inl ?_
    have read := @readAttributeList_attribute known position definition notices bare found stop
      rest notIndent notBuiltin notEquals
    simpa [AttributeItem.tokens, AttributeItem.recorded, AttributeItem.isTruth,
      AttributeItem.written] using read
  | some setting =>
    obtain ⟨before, value, after⟩ := setting
    have shape : AttributeItem.tokens ⟨bare, some ⟨before, value, after⟩⟩ ++ stop :: rest =
        bare.tokens ++ ⟨.punctuation, "="⟩ :: (before.unattach ++ (value.tokens ++
          (after.unattach ++ stop :: rest))) := by
      simp [AttributeItem.tokens, SettingLayout.tokens]
    have length : (AttributeItem.tokens ⟨bare, some ⟨before, value, after⟩⟩).length =
        bare.tokens.length + 1 + before.length + value.tokens.length + after.length := by
      simp only [AttributeItem.tokens, SettingLayout.tokens, Option.map_some, Option.getD_some,
        length_append, length_cons, length_unattach]
      omega
    have begins : skipIndent ⟨position + bare.tokens.length + 1, before.unattach ++
        (value.tokens ++ (after.unattach ++ stop :: rest)), definition, notices⟩ =
          .ok ⟨position + bare.tokens.length + 1 + before.length, value.tokens ++
            (after.unattach ++ stop :: rest), definition, notices⟩ := by
      obtain ⟨first, others, tokens, notIndent⟩ := value.exists_tokens_eq
      rw [tokens]
      exact skipIndent_append_cons before notIndent
    have within : rest.length + 1 ≤ (before.unattach ++ (value.tokens ++
        (after.unattach ++ stop :: rest))).length := by
      simp only [length_append, length_cons]
      omega
    rw [shape, length]
    cases isTruth : value.isTruth with
    | false =>
      have recorded : AttributeItem.recorded ⟨bare, some ⟨before, value, after⟩⟩ = value.value := by
        simp [AttributeItem.recorded, AttributeItem.isTruth, AttributeItem.written, isTruth]
      rw [recorded]
      obtain ⟨ended, read, passed | ⟨rfl, rfl, rfl⟩⟩ :=
        @exists_readAttributeValue
          (position + bare.tokens.length + 1 + before.length) definition notices
          (found.insert bare.name (.flag true)) bare.name after stop rest stops value isTruth
      · refine .inl ?_
        rw [Table.insert_insert] at read
        rw [readAttributeList_setting bare begins read passed]
        · simp [Nat.add_assoc]
        · split <;> exact within.trans' (by simp)
      · refine .inr ⟨rfl, ?_⟩
        rintro lead word more rfl
        have passed := @passComma_append_cons
          (position + bare.tokens.length + 1 + before.length + value.tokens.length + 1)
          definition notices lead ⟨.name, word⟩ more (by simp [Token.isIndent])
        rw [if_neg (by simp [Token.isPunctuation])] at passed
        rw [Table.insert_insert] at read
        rw [readAttributeList_setting bare begins read passed]
        · simp [Nat.add_assoc]
        · exact within.trans' (by simp; omega)
    | true =>
      obtain ⟨truth, rfl⟩ := exists_eq_truth isTruth
      refine .inl ?_
      have recorded : AttributeItem.recorded ⟨bare, some ⟨before, .truth truth, after⟩⟩ =
          .flag true := by
        simp [AttributeItem.recorded, AttributeItem.isTruth, isTruth]
      have read := @readAttributeValue_truth
        (position + bare.tokens.length + 1 + before.length) definition notices
        (found.insert bare.name (.flag true)) bare.name truth (after.unattach ++ stop :: rest)
      have passed := @passComma_append_cons
        (position + bare.tokens.length + 1 + before.length) definition notices []
        ⟨.builtinName, truthText truth⟩ (after.unattach ++ stop :: rest)
        (by simp [Token.isIndent])
      rw [if_neg (by simp [Token.isPunctuation])] at passed
      rw [readAttributeList_setting bare begins read passed, readAttributeList_builtin,
        readAttributeList_blanks after rest stops, recorded]
      · simp [tokens, Nat.add_assoc]
      · simp [tokens]

theorem readAttributeList_closing (tail : List Token) :
    readAttributeList known found ⟨position, ⟨.punctuation, ")"⟩ :: tail, definition, notices⟩ =
      .ok (found, ⟨position + 1, tail, definition, notices⟩) := by
  rw [readAttributeList]
  rfl

theorem readAttributeList_items (item : AttributeItem known) (others : List (AttributeItem known))
    (found : Attributes) (tail : List Token) :
    readAttributeList known found ⟨position, item.tokens ++
        ((others.flatMap fun next => ⟨.punctuation, ","⟩ :: next.tokens) ++
          ⟨.punctuation, ")"⟩ :: tail), definition, notices⟩ =
      .ok (found.insertAll ((item :: others).map fun item => (item.name, item.recorded)),
        ⟨position + (item.tokens.length +
          (others.flatMap fun next => ⟨.punctuation, ","⟩ :: next.tokens).length + 1), tail,
          definition, notices⟩) := by
  induction others generalizing item found position with
  | nil =>
    rw [flatMap_nil, nil_append]
    rcases @readAttributeList_item known position definition notices found item
      ⟨.punctuation, ")"⟩ tail (.inr rfl) with read | ⟨isComma, _⟩
    · rw [read, if_neg (by decide), readAttributeList_closing]
      rfl
    · exact absurd isComma (by decide)
  | cons next others ih =>
    have shape : ((next :: others).flatMap fun next => ⟨.punctuation, ","⟩ :: next.tokens) ++
        ⟨.punctuation, ")"⟩ :: tail = ⟨.punctuation, ","⟩ :: (next.tokens ++
          ((others.flatMap fun next => ⟨.punctuation, ","⟩ :: next.tokens) ++
            ⟨.punctuation, ")"⟩ :: tail)) := by
      simp
    rw [shape]
    rcases @readAttributeList_item known position definition notices found item
      ⟨.punctuation, ","⟩ _ (.inl rfl) with read | ⟨_, skipped⟩
    · rw [read, if_pos (by decide), ih]
      simp only [map_cons, Table.insertAll, foldl_cons, flatMap_cons, length_append, length_cons]
      congr 3
      omega
    · -- The blanks in front of the next attribute are gone already.
      rw [skipped next.before next.name _ (next.tokens_behind_append next.before _)]
      have read := @ih (position + (item.tokens.length + 1 + next.before.length))
        (next.behind []) (found.insert item.name item.recorded)
      rw [next.tokens_behind_append [], unattach_nil, nil_append] at read
      rw [read, flatMap_cons, length_append, length_cons, next.length_tokens]
      simp only [map_cons, Table.insertAll, foldl_cons, AttributeItem.behind]
      congr 3
      omega

theorem readAttributes_attributeList (list : AttributeList known) (tail : List Token) :
    readAttributes known ⟨position, list.tokens ++ tail, definition, notices⟩ =
      .ok (list.attributes, ⟨position + list.tokens.length, tail, definition, notices⟩) := by
  obtain ⟨indent, inner, items⟩ := list
  have opens : Token.isPunctuation ⟨.punctuation, "("⟩ "(" = true := by decide
  have read : readAttributeList known {} ⟨position + indent.length + 1, inner.unattach ++
      (parted ⟨.punctuation, ","⟩ (items.map AttributeItem.tokens) ++
        ⟨.punctuation, ")"⟩ :: tail), definition, notices⟩ =
      .ok (Table.ofList (items.map fun item => (item.name, item.recorded)),
        ⟨position + (AttributeList.mk indent inner items).tokens.length, tail, definition,
          notices⟩) := by
    cases items with
    | nil =>
      rw [map_nil, parted, nil_append,
        readAttributeList_blanks inner tail (.inr rfl), if_neg (by decide),
        readAttributeList_closing]
      simp only [AttributeList.tokens, map_nil, parted, nil_append, length_append,
        length_unattach, length_cons, length_nil]
      congr 3
      omega
    | cons first others =>
      have indented : inner.unattach ++ (parted ⟨.punctuation, ","⟩
          ((first :: others).map AttributeItem.tokens) ++ ⟨.punctuation, ")"⟩ :: tail) =
            (first.behind (inner ++ first.before)).tokens ++ ((others.flatMap fun next =>
              ⟨.punctuation, ","⟩ :: next.tokens) ++ ⟨.punctuation, ")"⟩ :: tail) := by
        simp [parted, flatMap_map, AttributeItem.behind, AttributeItem.tokens, BareAttribute.tokens]
      have length : (first.behind (inner ++ first.before)).tokens.length =
          inner.length + first.tokens.length := by
        rw [first.length_tokens, (first.behind _).length_tokens]
        simp only [AttributeItem.behind, length_append]
        omega
      rw [indented, readAttributeList_items, length]
      simp only [AttributeList.tokens, map_cons, parted, flatMap_map,
        length_append, length_unattach, length_cons, length_nil]
      congr 3
      omega
  have shape : (AttributeList.mk indent inner items).tokens ++ tail = indent.unattach ++
      ⟨.punctuation, "("⟩ :: (inner.unattach ++ (parted ⟨.punctuation, ","⟩
        (items.map AttributeItem.tokens) ++ ⟨.punctuation, ")"⟩ :: tail)) := by
    simp [AttributeList.tokens]
  rw [readAttributes, shape]
  simp only [skipIndent_append_cons indent (by decide : Token.isIndent ⟨.punctuation, "("⟩ = false),
    Reads.ok_bind, peek_cons, opens, if_true, advance_one, read]
  rfl

end ClassState

/-! ## Lexing -/

/-- Where an attribute list may stand. -/
inductive AttributeScope where
  | ofClass
  | ofProperties
  | ofMethods

def AttributeScope.names : AttributeScope → List Text
  | ofClass => ClassDef.classAttributes
  | ofProperties => ClassDef.propertyAttributes
  | ofMethods => ClassDef.methodAttributes

theorem AttributeScope.isCodeWord_of_mem_names (scope : AttributeScope) :
    ∀ name ∈ scope.names, isCodeWord name ∧ wordKind name = .name := by
  have capitalized : ∀ name ∈ scope.names, isCodeWord name ∧ name.head?.any Char.isUpper := by
    cases scope <;> decide
  exact fun name member => ⟨(capitalized name member).1,
    wordKind_of_isUpper (capitalized name member).2⟩

variable {scope : AttributeScope}

theorem SettingLayout.lexedAs (setting : SettingLayout) {before : Char} {rest : Text}
    (ends : EndsWord rest) :
    LexedAs before setting.text setting.tokens rest := by
  obtain ⟨front, value, back⟩ := setting
  have equals : LexedAs before ['='] [⟨.punctuation, "="⟩]
      (indentText front ++ (value.text ++ indentText back) ++ rest) := by
    apply lexedAs_equals
    intro first
    rw [append_assoc, append_assoc] at first
    rcases head?_indentText_append front _ '=' first with blank | inValue
    · exact absurd blank (by decide)
    · obtain ⟨c, isFirst, different⟩ := value.head?_text (indentText back ++ rest)
      exact different (Option.some.inj (isFirst.symm.trans inValue))
  -- In front of the value stands the equals sign or a blank, so a quote opens text.
  have free : LexRule.endsOperand (some ((indentText front).getLastD '=')) = false := by
    rw [getLastD_eq_getLast?]
    cases last : (indentText front).getLast? with
    | none => decide
    | some c =>
      have blank := isIndent_of_mem_indentText front c (mem_of_getLast? last)
      have isSign : c = ' ' ∨ c = '\t' := by simpa [isIndent] using blank
      rcases isSign with rfl | rfl <;> decide
  have inLine : ['='].getLastD before ≠ '\n' := by simp
  have behindFront := getLastD_ne inLine (lineFeed_not_mem_indentText front)
  have behindValue := getLastD_ne behindFront value.lineFeed_not_mem_text
  exact equals.append ((lexedAs_indent inLine front _).append
    ((value.lexedAs behindFront free (ends_indentText_append back ends)).append
      (lexedAs_indent behindValue back rest)))

namespace AttributeItem

variable (item : AttributeItem scope.names)

theorem lexedAs {before : Char} {rest : Text} (inLine : before ≠ '\n')
    (ends : EndsWord rest) : LexedAs before item.text item.tokens rest := by
  obtain ⟨isWord_name, isName⟩ := scope.isCodeWord_of_mem_names item.name item.isKnown
  let word : CodeWord := ⟨item.name, isWord_name⟩
  have token : word.token = ⟨.name, item.name⟩ := congrArg (Token.mk · item.name) isName
  have setting : ∀ before : Char, LexedAs before ((item.setting.map SettingLayout.text).getD [])
      ((item.setting.map SettingLayout.tokens).getD []) rest := by
    intro before
    cases item.setting with
    | none => exact LexedAs.nil before rest
    | some setting => exact setting.lexedAs ends
  have settingEnds : ∀ c ∈ ((item.setting.map SettingLayout.text).getD [] ++ rest).head?,
      isWord c = false := by
    cases item.setting with
    | none => exact ends
    | some setting => simp [SettingLayout.text, isWord, isAsciiWord]
  have behindFront := getLastD_ne inLine (lineFeed_not_mem_indentText item.before)
  have behindName := getLastD_ne behindFront word.lineFeed_not_mem_text
  have named := word.lexedAs behindFront (ends_indentText_append item.after settingEnds)
  rw [token, ← append_assoc] at named
  have lexed := (lexedAs_indent inLine item.before _).append
    (named.append ((lexedAs_indent behindName item.after _).append (setting _)))
  have tokens : item.tokens = item.before.unattach ++ ([⟨.name, item.name⟩] ++
      (item.after.unattach ++ (item.setting.map SettingLayout.tokens).getD [])) := by
    simp [AttributeItem.tokens, BareAttribute.tokens]
  rw [tokens]
  exact lexed

end AttributeItem

namespace AttributeList

variable (list : AttributeList scope.names)

theorem lexedAs {before : Char} (inLine : before ≠ '\n') (rest : Text) :
    LexedAs before list.text list.tokens rest := by
  have behindFront := getLastD_ne inLine (lineFeed_not_mem_indentText list.indent)
  have opened : ['('].getLastD ((indentText list.indent).getLastD before) ≠ '\n' := by simp
  have behindInner := getLastD_ne opened (lineFeed_not_mem_indentText list.inner)
  have items := @lexedAs_parted _ ([')'] ++ rest) _ AttributeItem.text AttributeItem.tokens
    (by simp [isWord, isAsciiWord]) list.items (fun item _ => item.lexedAs) behindInner
  exact (lexedAs_indent inLine list.indent _).append ((lexedAs_bracket (by simp)).append
    ((lexedAs_indent opened list.inner _).append (items.append (lexedAs_bracket (by simp)))))

theorem getLastD_text (before : Char) : list.text.getLastD before = ')' := by
  have text : list.text = (indentText list.indent ++ '(' :: (indentText list.inner ++
      parted ',' (list.items.map AttributeItem.text))) ++ [')'] := by
    simp [AttributeList.text]
  rw [text, getLastD_eq_getLast?, getLast?_concat]
  rfl

private theorem attributes_of_plain {list : AttributeList known}
    (plain : ∀ item ∈ list.items, item.isTruth = false) :
    list.attributes = Table.ofList list.entries := by
  have recorded : ∀ item ∈ list.items, (item.name, item.recorded) = (item.name, item.written) := by
    intro item member
    rw [AttributeItem.recorded, plain item member, if_neg Bool.false_ne_true]
  rw [attributes, entries, map_congr_left recorded]

/-- An attribute list without truth values is read as it is written.  Wherever it stands in a line,
its text is cut into its tokens; reading them ends right behind the closing parenthesis, without
a notice, and gives each name the value that is written last for it, with the names in the order
in which they are first written. -/
theorem attribute_lists_read_back {list : AttributeList scope.names}
    (plain : ∀ item ∈ list.items, item.isTruth = false) {before : Char} (inLine : before ≠ '\n')
    (rest : Text) (position : Nat) (definition : ClassDef) (notices : List Notice) :
    lexFrom .code (some before) (list.text ++ rest) =
        list.tokens ++ lexFrom .code (some ')') rest ∧
      ∃ attributes : Attributes,
        ClassState.readAttributes scope.names
            ⟨position, lexFrom .code (some before) (list.text ++ rest), definition, notices⟩ =
          .ok (attributes, ⟨position + list.tokens.length, lexFrom .code (some ')') rest,
            definition, notices⟩) ∧
        attributes.keys = (list.entries.map Prod.fst).eraseDups ∧
        ∀ name, attributes.get? name = list.entries.reverse.lookup name := by
  have lexed := list.lexedAs inLine rest
  rw [LexedAs, list.getLastD_text before] at lexed
  refine ⟨lexed, Table.ofList list.entries, ?_, Table.keys_ofList list.entries,
    Table.get?_ofList list.entries⟩
  rw [lexed, ClassState.readAttributes_attributeList list, attributes_of_plain plain]

/-- Every form of value in one list, with a name that is written twice. -/
def sample : AttributeList AttributeScope.ofProperties.names where
  indent := [.blank]
  inner := []
  items :=
    [⟨⟨[], "Access", by decide, []⟩,
        some ⟨[.blank], .word ⟨"protected", by decide⟩ (by decide +kernel), []⟩⟩,
      ⟨⟨[.blank], "Hidden", by decide, [.blank]⟩, none⟩,
      ⟨⟨[], "TestParameter", by decide, []⟩,
        some ⟨[], .cell [([], ⟨⟨"a", by decide⟩, [⟨"B", by decide⟩]⟩),
          ([.blank], ⟨⟨"C", by decide⟩, []⟩)], [.blank]⟩⟩,
      ⟨⟨[.blank], "Access", by decide, [.blank]⟩,
        some ⟨[.blank], .metaClass ⟨⟨"p", by decide⟩, [⟨"Q", by decide⟩]⟩, []⟩⟩,
      ⟨⟨[], "GetAccess", by decide, []⟩, some ⟨[], .quoted "public" (by decide) (by decide), []⟩⟩]

theorem attribute_lists_read_back_sample :
    (∀ item ∈ sample.items, item.isTruth = false) ∧ 's' ≠ '\n' ∧
    sample.text = String.toList (" (Access= protected, Hidden ,TestParameter=\x7b?a.B, ?C\x7d , " ++
      "Access = ?p.Q,GetAccess='public')") ∧
    ∃ attributes : Attributes,
      ClassState.readAttributes AttributeScope.ofProperties.names
          ⟨1, lexFrom .code (some 's') (sample.text ++ ['\n']),
            { name := "A", module := "m", tokens := [] }, []⟩ =
        .ok (attributes, ⟨1 + sample.tokens.length, lexFrom .code (some ')') ['\n'],
          { name := "A", module := "m", tokens := [] }, []⟩) ∧
      attributes.keys = ["Access", "Hidden", "TestParameter", "GetAccess"].map String.toList ∧
      attributes.get? "Access" = some (.word "?p.Q") ∧
      attributes.get? "TestParameter" = some (.items ["?a.B", "?C"]) := by
  have plain : ∀ item ∈ sample.items, item.isTruth = false := by decide
  have inLine : 's' ≠ '\n' := by decide
  obtain ⟨_, attributes, read, keys, values⟩ := attribute_lists_read_back plain inLine ['\n'] 1
    { name := "A", module := "m", tokens := [] } []
  refine ⟨plain, inLine, by decide, attributes, read, ?_, ?_, ?_⟩
  · rw [keys]
    decide
  · rw [values]
    decide
  · rw [values]
    decide

end AttributeList

end MatlabDocs
