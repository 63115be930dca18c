import MatlabDocs.Proofs.Class.Reader

/-!
# Bare attributes

A block may start with known attributes in parentheses.  An attribute without a value is
set, and the attributes are found in the order in which they stand.
-/

namespace MatlabDocs

/-- A known attribute without a value, with the blanks around it. -/
structure BareAttribute (known : List Text) where
  before : List IndentToken
  name : Text
  isKnown : name ∈ known
  after : List IndentToken

/-- What stands between the keyword of a block and the end of its line. -/
structure AttributeLayout (known : List Text) where
  indent : List IndentToken
  list : Option (List (BareAttribute known))

variable {known : List Text}

namespace BareAttribute

def tokens (bare : BareAttribute known) : List Token :=
  bare.before.unattach ++ ⟨.name, bare.name⟩ :: bare.after.unattach

def listTokens : List (BareAttribute known) → List Token
  | [] => []
  | [last] => last.tokens
  | bare :: next :: rest =>
    bare.tokens ++ ⟨.punctuation, ","⟩ :: listTokens (next :: rest)

def entry (bare : BareAttribute known) : Text × AttributeValue :=
  (bare.name, .flag true)

end BareAttribute

def AttributeLayout.tokens (layout : AttributeLayout known) : List Token :=
  layout.indent.unattach ++
    match layout.list with
    | none => []
    | some list => ⟨.punctuation, "("⟩ :: (BareAttribute.listTokens list ++ [⟨.punctuation, ")"⟩])

def AttributeLayout.attributes (layout : AttributeLayout known) : Attributes :=
  Table.ofList ((layout.list.getD []).map BareAttribute.entry)

namespace ClassState

variable {position : Nat} {definition : ClassDef} {notices : List Notice}

/-- What reading a list does behind a known name depends on the token that follows it. -/
theorem readAttributeList_name (bare : BareAttribute known) (found : Attributes) {stop : Token}
    (rest : List Token) (stops : stop.isIndent = false) :
    readAttributeList known found ⟨position, bare.tokens ++ stop :: rest, definition, notices⟩ =
      let start : ClassState := ⟨position, bare.tokens ++ stop :: rest, definition, notices⟩
      let here : ClassState :=
        ⟨position + bare.tokens.length, stop :: rest, definition, notices⟩
      let set := found.insert bare.name (.flag true)
      if stop.kind == .builtinName || stop.isPunctuation "," then
        progressing .attributes start (here.advance 1) fun _ =>
          readAttributeList known set (here.advance 1)
      else if stop.isPunctuation "=" then do
        let (valued, ended) ← readAttributeValue bare.name set (← (here.advance 1).skipIndent)
        let last ← ended.skipIndent
        let after := if (← last.peek).isPunctuation "," then last.advance 1 else last
        progressing .attributes start after fun _ => readAttributeList known valued after
      else progressing .attributes start here fun _ => readAttributeList known set here := by
  have isKnown : known.contains bare.name = true := by simpa using bare.isKnown
  have nameStops : Token.isIndent ⟨.name, bare.name⟩ = false := by simp [Token.isIndent]
  have split : bare.tokens ++ stop :: rest = bare.before.unattach ++
      ⟨.name, bare.name⟩ :: (bare.after.unattach ++ stop :: rest) := by
    simp [BareAttribute.tokens]
  have length : position + bare.tokens.length =
      position + bare.before.length + 1 + bare.after.length := by
    simp only [BareAttribute.tokens, List.length_append, List.length_cons, List.length_unattach]
    omega
  obtain ⟨first, notClosing, peeked⟩ := @exists_peek position definition notices
    bare.before.unattach (bare.after.unattach ++ stop :: rest) ⟨.name, bare.name⟩ _
    (not_isPunctuation_of_mem_unattach bare.before ")") fun _ => by simp [Token.isPunctuation]
  rw [split, length, readAttributeList]
  simp only [peeked, Reads.ok_bind, notClosing, Bool.false_eq_true, if_false, peek_cons,
    skipIndent_append_cons bare.before nameStops, beq_self_eq_true, isKnown, Bool.and_self, if_true,
    advance_one, skipIndent_append_cons bare.after stops]

theorem readAttributeList_attribute (bare : BareAttribute known) (found : Attributes)
    {stop : Token} (rest : List Token) (stops : stop.isIndent = false)
    (notBuiltin : (stop.kind == .builtinName) = false)
    (notEquals : stop.isPunctuation "=" = false) :
    readAttributeList known found ⟨position, bare.tokens ++ stop :: rest, definition, notices⟩ =
      readAttributeList known (found.insert bare.name (.flag true))
        (if stop.isPunctuation "," then
          ⟨position + (bare.tokens.length + 1), rest, definition, notices⟩
        else ⟨position + bare.tokens.length, stop :: rest, definition, notices⟩) := by
  rw [readAttributeList_name bare found rest stops]
  simp only [notBuiltin, Bool.false_or, advance_one]
  cases comma : stop.isPunctuation "," with
  | true =>
    rw [if_pos rfl, if_pos rfl,
      progressing_of_lt (by simp only [List.length_append, List.length_cons]; omega),
      Nat.add_assoc]
  | false =>
    have shorter : (stop :: rest).length < (bare.tokens ++ stop :: rest).length := by
      simp only [BareAttribute.tokens, List.length_append, List.length_cons]
      omega
    rw [if_neg Bool.false_ne_true, notEquals, if_neg Bool.false_ne_true,
      if_neg Bool.false_ne_true, progressing_of_lt shorter]

theorem readAttributes_blanks (indent : List IndentToken) {stop : Token} (rest : List Token)
    (stops : stop.isIndent = false) (notOpening : stop.isPunctuation "(" = false) :
    readAttributes known ⟨position, indent.unattach ++ stop :: rest, definition, notices⟩ =
      .ok ({}, ⟨position + indent.length, stop :: rest, definition, notices⟩) := by
  rw [readAttributes, skipIndent_append_cons indent stops, Reads.ok_bind, peek_cons, Reads.ok_bind,
    notOpening]
  rfl

end ClassState

end MatlabDocs
