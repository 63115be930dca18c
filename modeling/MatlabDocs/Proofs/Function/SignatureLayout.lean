import MatlabDocs.Definition.Function

/-!
# Signatures as they are laid out

The tokens of a signature up to its closing parenthesis.  Reading them leads to the body with
the name, the outputs and the arguments that they hold, both for a function that is read
under the name of its file and for a method.
-/

namespace MatlabDocs

open FunctionDef

/-- The outputs in a signature, up to the equals sign and the white space behind it.  A lone
blank or tab in their place would be taken for white space. -/
structure OutputPart where
  text : Text
  notIndent : Token.isIndent ⟨.text, text⟩ = false
  gap : Text

/-- The parts of a signature in the order in which they stand. -/
structure SignatureLayout where
  keyword : Text
  gap : Text
  outputs : Option OutputPart
  name : Text
  arguments : Option Text

namespace SignatureLayout

variable (layout : SignatureLayout)

def argumentTokens : List Token :=
  match layout.arguments with
  | none => []
  | some text => [⟨.text, text⟩]

def callTokens : List Token :=
  ⟨.functionName, layout.name⟩ :: ⟨.punctuation, "("⟩ ::
    (layout.argumentTokens ++ [⟨.punctuation, ")"⟩])

def outputTokens : List Token :=
  match layout.outputs with
  | none => []
  | some outputs => [⟨.text, outputs.text⟩, ⟨.punctuation, "="⟩, ⟨.whitespace, outputs.gap⟩]

def signatureTokens : List Token :=
  ⟨.keyword, layout.keyword⟩ :: ⟨.whitespace, layout.gap⟩ ::
    (layout.outputTokens ++ layout.callTokens)

def bareName : Text :=
  layout.name.trim fun c => c == ' ' || c == '(' || c == ')'

def outputNames : Option (List Text) :=
  layout.outputs.bind fun outputs => FunctionDef.outputNames outputs.text

def argumentNames : Option (List Text) :=
  layout.arguments.map FunctionDef.argumentNames

/-- The name of the function: that of its file, or that in the signature of a method. -/
def nameUnder : FunctionDef.Naming → Text
  | .file name => name
  | .method => layout.bareName

/-- A function that is not named like its file is noticed. -/
def noticesUnder (module : Text) : FunctionDef.Naming → List Notice
  | .file name =>
    if layout.bareName = name then []
    else [Notice.unexpectedFunctionName layout.bareName name module]
  | .method => []

variable (naming : FunctionDef.Naming)

variable (module : Text) (definition : FunctionDef) (rest : List Token)

private theorem readArguments_argumentTokens (notices : List Notice)
    (rest : List Token) (noArguments : definition.arguments = none) :
    FunctionDef.readArguments naming definition notices
        (⟨.punctuation, "("⟩ :: (layout.argumentTokens ++ ⟨.punctuation, ")"⟩ :: rest)) =
      FunctionDef.readBody { definition with arguments := layout.argumentNames } notices rest := by
  cases arguments : layout.arguments with
  | none =>
    have unchanged : { definition with arguments := layout.argumentNames } = definition := by
      rw [argumentNames, arguments, Option.map_none, ← noArguments]
    rw [unchanged]
    simp [argumentTokens, arguments, readArguments, readClosing,
      Token.isPunctuation]
  | some text =>
    simp [argumentTokens, argumentNames, arguments, readArguments,
      readClosing, Token.isPunctuation]

theorem readName_callTokens
    (given : definition.name = naming.given) (noArguments : definition.arguments = none) :
    readName naming definition (layout.callTokens ++ rest) =
      readBody
        { definition with
          name := some (layout.nameUnder naming)
          arguments := layout.argumentNames }
        (layout.noticesUnder definition.module naming) rest := by
  have split : layout.callTokens ++ rest = ⟨.functionName, layout.name⟩ ::
      ⟨.punctuation, "("⟩ :: (layout.argumentTokens ++ ⟨.punctuation, ")"⟩ :: rest) := by
    simp [callTokens]
  rw [split, readName.eq_def]
  cases naming with
  | method =>
    exact layout.readArguments_argumentTokens .method
      { definition with name := some layout.bareName } [] rest noArguments
  | file name =>
    have sameName : some name = definition.name := given.symm
    have notices : (if ((⟨.functionName, layout.name⟩ : Token).kind == .functionName &&
        layout.bareName == name) = true then []
        else [Notice.unexpectedFunctionName layout.bareName name definition.module]) =
        layout.noticesUnder definition.module (.file name) := by
      simp [noticesUnder]
    have read := layout.readArguments_argumentTokens (.file name) definition
      (layout.noticesUnder definition.module (.file name)) rest noArguments
    rw [nameUnder, sameName]
    rw [← notices] at read ⊢
    exact read

private theorem read_cons (first : Token) (rest : List Token) :
    read naming module (first :: rest) =
      readOutputs naming { name := naming.given, module, tokens := first :: rest }
        (skipBlankTokens rest) :=
  rfl

theorem read_signatureTokens :
    FunctionDef.read naming module (layout.signatureTokens ++ rest) =
      FunctionDef.readBody
        { name := some (layout.nameUnder naming), module,
          tokens := layout.signatureTokens ++ rest,
          outputs := layout.outputNames, arguments := layout.argumentNames }
        (layout.noticesUnder module naming) rest := by
  have gapSkipped : ∀ gap tokens, skipBlankTokens (⟨.whitespace, gap⟩ :: tokens) =
      skipBlankTokens tokens := by
    intro gap tokens
    simp [skipBlankTokens]
  have atName : skipBlankTokens (layout.callTokens ++ rest) =
      layout.callTokens ++ rest := by
    simp [skipBlankTokens, callTokens, Token.isIndent]
  have call := fun tokens outputs => layout.readName_callTokens naming
    { name := naming.given, module, tokens, outputs } rest rfl rfl
  cases outputs : layout.outputs with
  | none =>
    have noOutputs : ∀ definition,
        readOutputs naming definition (layout.callTokens ++ rest) =
        readName naming definition (layout.callTokens ++ rest) := by
      intro definition
      simp [callTokens, readOutputs]
    have start : layout.signatureTokens ++ rest =
        ⟨.keyword, layout.keyword⟩ :: ⟨.whitespace, layout.gap⟩ :: (layout.callTokens ++ rest) := by
      simp [signatureTokens, outputTokens, outputs]
    rw [start, read_cons, gapSkipped, atName, noOutputs, call _ none]
    simp [outputNames, outputs]
  | some found =>
    have start : layout.signatureTokens ++ rest =
        ⟨.keyword, layout.keyword⟩ :: ⟨.whitespace, layout.gap⟩ :: ⟨.text, found.text⟩ ::
          ⟨.punctuation, "="⟩ :: ⟨.whitespace, found.gap⟩ :: (layout.callTokens ++ rest) := by
      simp [signatureTokens, outputTokens, outputs]
    have atOutputs : ∀ tokens, skipBlankTokens (⟨.text, found.text⟩ :: tokens) =
        ⟨.text, found.text⟩ :: tokens := by
      intro tokens
      simp [skipBlankTokens, found.notIndent]
    rw [start, read_cons, gapSkipped, atOutputs]
    simp [readOutputs, Token.isPunctuation, gapSkipped, atName, call, outputNames,
      outputs]

end SignatureLayout

end MatlabDocs
