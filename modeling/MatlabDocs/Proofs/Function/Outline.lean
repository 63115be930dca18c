import MatlabDocs.Definition.File
import MatlabDocs.Proofs.Token.SpacedHeads

/-!
# Outlines of functions

The outline of a function is its name, its outputs, its arguments and the comment block below its
signature.  A head with a call gives them all: the outputs up to the equals sign, the arguments
between the last parentheses, and the comment block behind the blanks that follow.
-/

namespace MatlabDocs

open FunctionDef

/-- What a definition tells of itself at its head. -/
structure Outline where
  name : Option Text
  outputs : Option (List Text)
  arguments : Option (List Text)
  docstring : Text
  deriving DecidableEq, Repr

def FunctionDef.outline (definition : FunctionDef) : Outline :=
  ⟨definition.name, definition.outputs, definition.arguments, definition.docstring⟩

/-- Only a function has outputs and arguments. -/
def Definition.outline : Definition → Outline
  | .function definition => definition.outline
  | .class definition => ⟨some definition.name, none, none, definition.docstring⟩
  | .script definition => ⟨some definition.name, none, none, definition.docstring⟩
  | .application definition => ⟨some definition.name, none, none, definition.docstring⟩

section

def bodyDocstring (tokens : List Token) : Text :=
  match skipBlankTokens tokens with
  | [] => []
  | first :: rest => (readCommentBlock first rest).text

variable {token : Token} {tokens : List Token}

theorem skipBlankTokens_cons (skipped : token.kind == .whitespace || token.isIndent) :
    skipBlankTokens (token :: tokens) = skipBlankTokens tokens :=
  List.dropWhile_cons_of_pos skipped

theorem skipBlankTokens_cons_of_kept
    (kept : (token.kind == .whitespace || token.isIndent) = false) :
    skipBlankTokens (token :: tokens) = token :: tokens :=
  List.dropWhile_cons_of_neg (by simp [kept])

theorem skipBlankTokens_whitespace_append (value : Text) :
    skipBlankTokens (pieceTokens .whitespace value ++ tokens) = skipBlankTokens tokens := by
  rw [pieceTokens]
  split
  · rfl
  · exact skipBlankTokens_cons rfl

theorem bodyDocstring_cons (skipped : token.kind == .whitespace || token.isIndent) :
    bodyDocstring (token :: tokens) = bodyDocstring tokens := by
  rw [bodyDocstring, skipBlankTokens_cons skipped, bodyDocstring]

theorem bodyDocstring_whitespace_append (value : Text) :
    bodyDocstring (pieceTokens .whitespace value ++ tokens) = bodyDocstring tokens := by
  rw [bodyDocstring, skipBlankTokens_whitespace_append, bodyDocstring]

theorem FunctionDef.outline_readBody (definition : FunctionDef) (notices : List Notice)
    (tokens : List Token) (undocumented : definition.docstring = []) :
    (readBody definition notices tokens).definition.outline =
      { definition.outline with docstring := bodyDocstring tokens } := by
  rw [readBody.eq_def, bodyDocstring]
  cases skipBlankTokens tokens with
  | nil => simp only [outline, undocumented]
  | cons first rest => rfl

end

theorem HeadOutputs.not_isIndent (outputs : HeadOutputs) :
    Token.isIndent ⟨.text, outputs.text⟩ = false := by
  rw [Bool.eq_false_iff]
  intro indent
  have visible := outputs.visible
  rcases Token.isIndent_iff.mp indent with isBlankToken | isTabToken
  · rw [(Token.mk.inj isBlankToken).2] at visible
    exact absurd (visible ' ' rfl) (by decide)
  · rw [(Token.mk.inj isTabToken).2] at visible
    exact absurd (visible '\t' rfl) (by decide)

namespace CalledHead

variable (head : CalledHead) (name module : Text)

def argumentNames : Option (List Text) :=
  if head.arguments = [] then none else some (FunctionDef.argumentNames head.arguments)

def outputNames : Option (List Text) :=
  head.outputs.bind fun found => FunctionDef.outputNames found.text

def callLayout : SignatureLayout where
  keyword := []
  gap := []
  outputs := none
  name := head.name
  arguments := if head.arguments = [] then none else some head.arguments

theorem callTokens_callLayout : head.callLayout.callTokens = head.callTokens := by
  rw [SignatureLayout.callTokens, SignatureLayout.argumentTokens, callTokens, pieceTokens,
    callLayout]
  by_cases noArguments : head.arguments = []
  · simp [noArguments]
  · simp [noArguments]

theorem argumentNames_callLayout : head.callLayout.argumentNames = head.argumentNames := by
  rw [SignatureLayout.argumentNames, argumentNames, callLayout]
  split
  · rfl
  · rfl

variable (keyword : Token) (tokens : List Token)

theorem skipBlankTokens_callTokens_append :
    skipBlankTokens (head.callTokens ++ tokens) = head.callTokens ++ tokens :=
  skipBlankTokens_cons_of_kept (by simp [Token.isIndent])

theorem readName_callTokens (definition : FunctionDef) (tokens : List Token)
    (given : definition.name = some name) (noArguments : definition.arguments = none) :
    readName (.file name) definition (head.callTokens ++ tokens) =
      readBody
        { definition with name := some name, arguments := head.argumentNames }
        (head.callLayout.noticesUnder definition.module (.file name)) tokens := by
  have read := head.callLayout.readName_callTokens (.file name) definition tokens given noArguments
  rwa [head.callTokens_callLayout, head.argumentNames_callLayout] at read

theorem read_tokens :
    read (.file name) module (keyword :: (head.tokens ++ tokens)) =
      readBody
        { name := some name, module, tokens := keyword :: (head.tokens ++ tokens),
          outputs := head.outputNames, arguments := head.argumentNames }
        (head.callLayout.noticesUnder module (.file name)) tokens := by
  rw [FunctionDef.read, CalledHead.tokens, List.append_assoc, skipBlankTokens_whitespace_append,
    outputNames, outputTokens]
  cases head.outputs with
  | none =>
    rw [List.nil_append, skipBlankTokens_callTokens_append]
    exact head.readName_callTokens name _ tokens rfl rfl
  | some found =>
    have kept : ∀ others, skipBlankTokens (⟨.text, found.text⟩ :: others) =
        ⟨.text, found.text⟩ :: others :=
      fun others => skipBlankTokens_cons_of_kept (by simp [found.not_isIndent])
    simp only [List.cons_append, kept]
    rw [readOutputs]
    simp only [BEq.rfl, if_true, Token.isPunctuation, List.append_assoc]
    rw [skipBlankTokens_whitespace_append, skipBlankTokens_callTokens_append]
    exact head.readName_callTokens name _ tokens rfl rfl

theorem outline_read :
    (read (.file name) module
      (keyword :: (head.tokens ++ tokens))).definition.outline =
      ⟨some name, head.outputNames, head.argumentNames, bodyDocstring tokens⟩ := by
  rw [read_tokens]
  exact outline_readBody _ _ tokens rfl

end CalledHead

end MatlabDocs
