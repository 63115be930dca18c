import MatlabDocs.Definition.Class.Properties
import MatlabDocs.Proofs.Function.MethodLayout
import MatlabDocs.Proofs.Table
import MatlabDocs.Proofs.Text.Pieces

/-!
# Steps of the class reader over known tokens

Each step that passes over tokens is determined by the tokens it passes and by the one that
stops it.  `Consumes` states what a step does with a run of tokens whatever stands in the
state otherwise, so that the steps of a whole class can be put together.
-/

namespace MatlabDocs

namespace Token

theorem not_isIndent_of_isNewline {token : Token} (isNewline : token.isNewline) :
    token.isIndent = false := by
  rcases isNewline_iff.mp isNewline with rfl | rfl <;> decide

theorem not_isPunctuation_of_isIndent {token : Token} (indent : token.isIndent) (sign : Text) :
    token.isPunctuation sign = false := by
  rcases isIndent_iff.mp indent with rfl | rfl <;> simp [isPunctuation]

theorem not_isKeyword_of_isSpacing {token : Token} (spacing : ClassState.isSpacing token)
    (word : Text) : token.isKeyword word = false := by
  obtain ⟨kind, value⟩ := token
  simp only [ClassState.isSpacing, Bool.and_eq_true, Bool.or_eq_true, beq_iff_eq] at spacing
  rcases spacing.1 with rfl | rfl <;> simp [isKeyword]

end Token

def IndentToken.blank : IndentToken :=
  ⟨⟨.text, " "⟩, rfl⟩

theorem not_isPunctuation_of_mem_unattach (indent : List IndentToken) (sign : Text) :
    ∀ token ∈ indent.unattach, token.isPunctuation sign = false :=
  fun token member => Token.not_isPunctuation_of_isIndent
    (isIndent_of_mem_unattach indent token member) sign

def LineEndToken.feed : LineEndToken :=
  ⟨⟨.whitespace, "\n"⟩, rfl⟩

theorem ClassState.isSpacing_of_isIndent {token : Token} (indent : token.isIndent) :
    isSpacing token := by
  rcases Token.isIndent_iff.mp indent with rfl | rfl <;> rfl

theorem ClassState.isSpacing_of_isNewline {token : Token} (newline : token.isNewline) :
    isSpacing token := by
  rcases Token.isNewline_iff.mp newline with rfl | rfl <;> rfl

theorem LineEndToken.isSpacing_of_mem (lineEnd : LineEndToken) :
    ∀ token ∈ [lineEnd.val], ClassState.isSpacing token := by
  rw [List.forall_mem_singleton]
  exact ClassState.isSpacing_of_isNewline lineEnd.property

theorem countWhile?_append_cons {test : Token → Bool} {passed rest : List Token} {stop : Token}
    (passes : ∀ token ∈ passed, test token) (stops : test stop = false) :
    countWhile? test (passed ++ stop :: rest) = some passed.length := by
  simp [countWhile?, takeWhile_append_cons passes stops]

instance decidableEqExcept {ε α : Type} [DecidableEq ε] [DecidableEq α] : DecidableEq (Except ε α)
  | .ok first, .ok second => decidable_of_iff (first = second) (by simp)
  | .error first, .error second => decidable_of_iff (first = second) (by simp)
  | .ok _, .error _ => isFalse nofun
  | .error _, .ok _ => isFalse nofun

theorem Reads.ok_bind {α β : Type} (value : α) (next : α → Reads β) :
    ((.ok value : Reads α) >>= next) = next value :=
  rfl

namespace ClassState

/-- The step reads just these tokens in front of the tail and changes only the definition. -/
def Consumes (step : ClassState → Reads ClassState) (tokens tail : List Token)
    (change : ClassDef → ClassDef) : Prop :=
  ∀ position definition notices,
    step ⟨position, tokens ++ tail, definition, notices⟩ =
      .ok ⟨position + tokens.length, tail, change definition, notices⟩

/-- What is read of a declaration behind the name of its property. -/
def readSpecified (name : Text) (state : ClassState) : Reads PropertyStep := do
  let specified ← state.pass isSpecifier
  if (← specified.peek).isPunctuation ";" then return .next name specified
  else return .next name (← readPropertyEnd name specified)

variable {position : Nat} {definition : ClassDef} {notices : List Notice}
variable {passed rest : List Token} {stop : Token}

@[simp] theorem peek_cons : peek ⟨position, stop :: rest, definition, notices⟩ = .ok stop :=
  rfl

/-- The next token is the first of those that are passed, or the one that stops. -/
theorem exists_peek {holds : Token → Prop} (passes : ∀ token ∈ passed, holds token)
    (stops : passed = [] → holds stop) :
    ∃ first, holds first ∧
      peek ⟨position, passed ++ stop :: rest, definition, notices⟩ = .ok first := by
  cases passed with
  | nil => exact ⟨stop, stops rfl, rfl⟩
  | cons first passed => exact ⟨first, passes first (by simp), rfl⟩

theorem advance_append (passed rest : List Token) :
    advance ⟨position, passed ++ rest, definition, notices⟩ passed.length =
      ⟨position + passed.length, rest, definition, notices⟩ := by
  simp [advance]

@[simp] theorem advance_one :
    advance ⟨position, stop :: rest, definition, notices⟩ 1 =
      ⟨position + 1, rest, definition, notices⟩ :=
  rfl

variable {test : Token → Bool} (token : Token) (state : ClassState)

theorem skip_append_cons (passes : ∀ token ∈ passed, test token) (stops : test stop = false) :
    skip ⟨position, passed ++ stop :: rest, definition, notices⟩ test =
      .ok ⟨position + passed.length, stop :: rest, definition, notices⟩ := by
  simp [skip, count, countWhile?_append_cons passes stops, advance, bind, Except.bind, pure,
    Except.pure]

theorem skip_cons (stops : test stop = false) :
    skip ⟨position, stop :: rest, definition, notices⟩ test =
      .ok ⟨position, stop :: rest, definition, notices⟩ := by
  have nothing : ∀ token ∈ ([] : List Token), test token := by simp
  simpa using skip_append_cons nothing stops

theorem skipIndent_append_cons (indent : List IndentToken) (stops : stop.isIndent = false) :
    skipIndent ⟨position, indent.unattach ++ stop :: rest, definition, notices⟩ =
      .ok ⟨position + indent.length, stop :: rest, definition, notices⟩ := by
  rw [skipIndent, skip_append_cons (isIndent_of_mem_unattach indent) stops, List.length_unattach]

theorem skipIndent_cons (stops : stop.isIndent = false) :
    skipIndent ⟨position, stop :: rest, definition, notices⟩ =
      .ok ⟨position, stop :: rest, definition, notices⟩ :=
  skip_cons stops

theorem pass_append_cons (passes : ∀ token ∈ passed, test token) (stops : test stop = false) :
    pass ⟨position, passed ++ stop :: rest, definition, notices⟩ test =
      .ok ⟨position + passed.length, stop :: rest, definition, notices⟩ := by
  simp [pass, takeWhile_append_cons passes stops, advance]

def isCommentary (token : Token) : Bool :=
  isSpacing token || token.isComment

theorem isCommentary_of_isSpacing (spacing : isSpacing token) : isCommentary token := by
  simp [isCommentary, spacing]

theorem isCommentary_of_isIndent (indent : token.isIndent) : isCommentary token :=
  isCommentary_of_isSpacing token (isSpacing_of_isIndent indent)

theorem isCommentary_of_isNewline (newline : token.isNewline) : isCommentary token :=
  isCommentary_of_isSpacing token (isSpacing_of_isNewline newline)

theorem isCommentary_of_isComment (comment : token.isComment) : isCommentary token := by
  simp [isCommentary, comment]

theorem not_isKeyword_of_isCommentary {token : Token} (commentary : isCommentary token)
    (word : Text) : token.isKeyword word = false := by
  simp only [isCommentary, Bool.or_eq_true] at commentary
  rcases commentary with spacing | comment
  · exact Token.not_isKeyword_of_isSpacing spacing word
  · obtain ⟨kind, value⟩ := token
    have isComment : kind = .comment := by simpa [Token.isComment] using comment
    simp [Token.isKeyword, isComment]

theorem skipCommentary_run (commentary : ∀ token ∈ passed, isCommentary token)
    (stops : isCommentary stop = false) :
    skipCommentary ⟨position, passed ++ stop :: rest, definition, notices⟩ =
      .ok ⟨position + passed.length, stop :: rest, definition, notices⟩ := by
  have run : (passed ++ stop :: rest).takeWhile (fun token => isSpacing token || token.isComment)
      = passed :=
    takeWhile_append_cons commentary stops
  simp [skipCommentary, run, advance]

theorem skipCommentary_cons (stops : isCommentary stop = false) :
    skipCommentary ⟨position, stop :: rest, definition, notices⟩ =
      .ok ⟨position, stop :: rest, definition, notices⟩ := by
  have nothing : ∀ token ∈ ([] : List Token), isCommentary token := by simp
  simpa using skipCommentary_run nothing stops

theorem progressing_of_lt {α : Type} {loop : ReadingLoop} {start state : ClassState}
    {next : state.rest.length < start.rest.length → Reads α}
    (shorter : state.rest.length < start.rest.length) :
    progressing loop start state next = next shorter := by
  simp [progressing, shorter]

@[simp] theorem property?_setProperty (name : Text) (property : PropertyDef) :
    (state.setProperty name property).property? name = some property := by
  simp [setProperty, property?, modify]

theorem setProperty_setProperty (name : Text) (first second : PropertyDef) :
    (state.setProperty name first).setProperty name second = state.setProperty name second := by
  simp [setProperty, modify, Table.insert_insert]

end ClassState

end MatlabDocs
