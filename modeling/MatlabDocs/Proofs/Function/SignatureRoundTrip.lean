import MatlabDocs.Proofs.Function.SpacedReading
import MatlabDocs.Proofs.Source.SignatureLine

/-!
# Signatures are read back

A file that starts with a signature line, with nothing or a comment below it, defines a
function with the outputs and the arguments of the line.  Neither the steps that prepare the
code nor what the comment says can change them.
-/

namespace MatlabDocs

theorem FunctionDef.readBody_eq (definition : FunctionDef) (notices : List Notice)
    (tokens : List Token) :
    ∃ docstring remaining, readBody definition notices tokens =
      ⟨{ definition with docstring, remaining }, notices⟩ := by
  rw [readBody.eq_def]
  split
  · exact ⟨definition.docstring, definition.remaining, rfl⟩
  · exact ⟨_, _, rfl⟩

theorem Definition.ofCode_of_read {name module code : Text} {tokens : List Token}
    {definition : FunctionDef} {notices : List Notice}
    (lexed : lex (prepareCode code) = tokens)
    (starts : tokens.head? = some ⟨.keyword, "function"⟩)
    (read : FunctionDef.read (.file name) module tokens = ⟨definition, notices⟩) :
    ofCode name module code = ⟨.ok (.function definition), notices⟩ := by
  have notClass : Token.isKeyword ⟨.keyword, "function"⟩ "classdef" = false := by decide
  have isFunction : Token.isKeyword ⟨.keyword, "function"⟩ "function" = true := by decide
  obtain ⟨others, rfl⟩ : ∃ others, tokens = ⟨.keyword, "function"⟩ :: others :=
    List.head?_eq_some_iff.mp starts
  rw [ofCode, lexed]
  simp only [notClass, isFunction, Bool.false_eq_true, if_false, if_true, read]

def namesOf (identifiers : List Identifier) : Option (List Text) :=
  if identifiers = [] then none else some (identifiers.map Identifier.text)

theorem listText_eq_nil_iff (names : List Identifier) : listText names = [] ↔ names = [] := by
  match names with
  | [] => exact ⟨fun _ => rfl, fun _ => rfl⟩
  | [only] => simp [listText, Text.joinWith_singleton, only.text_ne_nil]
  | first :: second :: others => simp [listText, Text.joinWith_cons_cons]

namespace SignatureLine

variable (line : SignatureLine)

def head : CalledHead :=
  line.spaced.callHead none line.call

theorem bareName_head : line.head.callLayout.bareName = line.name.text := by
  have isName : line.head.callLayout.name = line.name.text := List.append_nil _
  rw [SignatureLayout.bareName, isName]
  refine line.name.trim_text ?_
  intro c word
  have blank : c ≠ ' ' := ne_of_test word (by decide)
  have opening : c ≠ '(' := ne_of_test word (by decide)
  have closing : c ≠ ')' := ne_of_test word (by decide)
  simp [blank, opening, closing]

private theorem isTidy_spaced : line.spaced.IsTidy where
  keyword := fun _ uncalled => nomatch uncalled
  separators := by
    intro found isFound
    obtain ⟨_, ⟨⟩⟩ := Option.ite_none_left_eq_some.mp isFound
    exact isTidy_outputsOf line.outputs
  closing := by
    intro found isFound _
    obtain ⟨_, ⟨⟩⟩ := Option.ite_none_left_eq_some.mp isFound
    simp [Gap.blank]

theorem outputNames_head : line.head.outputNames = namesOf line.outputs := by
  have read : line.head.outputNames = line.assignment.bind fun found =>
      FunctionDef.foundNames (found.outputs.words Identifier.text) :=
    SpacedSignature.outputNames_headOutputs none line.isTidy_spaced
  rw [read, assignment, namesOf]
  split
  · rfl
  · rename_i notEmpty
    rw [Option.bind_some, words_outputsOf, FunctionDef.foundNames_map notEmpty]

theorem argumentNames_head : line.head.argumentNames = namesOf line.arguments := by
  have read : line.head.argumentNames = line.call.argumentNames :=
    line.spaced.argumentNames_callHead none line.call
  rw [read, SpacedCall.argumentNames, inner_call, call, map_bare_cellsOf, List.map_map, namesOf]
  simp only [listText_eq_nil_iff]
  rfl

theorem lexFrom_text {rest : Text} (below : ∀ c ∈ (rest.dropWhile isBlank).head?, c ≠ '=') :
    lexFrom .code none (line.text ++ '\n' :: rest) = ⟨.keyword, "function"⟩ :: (line.head.tokens ++
      ⟨.whitespace, '\n' :: rest.takeWhile isBlank⟩ :: tokensBelow rest) := by
  have keyword := line.spaced.lexFrom_written none rfl .empty rest
  have head := line.head.lexFrom_text_of_blank (List.forall_mem_nil _) below (some 'n')
  rw [show line.head.text = _ from line.spaced.text_callHead none rfl] at head
  rw [← text_spaced]
  exact keyword.trans (congrArg _ head)

/-- What the signature determines in a definition is as in the line. -/
structure Describes (module : Text) (definition : FunctionDef) : Prop where
  name_eq : definition.name = some line.name.text
  module_eq : definition.module = module
  outputs_eq : definition.outputs = namesOf line.outputs
  arguments_eq : definition.arguments = namesOf line.arguments

theorem read_head (module : Text) (rest : List Token) :
    ∃ definition, line.Describes module definition ∧
      FunctionDef.read (.file line.name.text) module
        (⟨.keyword, "function"⟩ :: (line.head.tokens ++ rest)) = ⟨definition, []⟩ := by
  have noNotice : line.head.callLayout.noticesUnder module (.file line.name.text) = [] := by
    rw [SignatureLayout.noticesUnder, bareName_head, if_pos rfl]
  rw [CalledHead.read_tokens, noNotice, outputNames_head, argumentNames_head]
  obtain ⟨docstring, remaining, body⟩ := FunctionDef.readBody_eq
    { name := some line.name.text, module,
      tokens := ⟨.keyword, "function"⟩ :: (line.head.tokens ++ rest),
      outputs := namesOf line.outputs, arguments := namesOf line.arguments } [] rest
  exact ⟨_, ⟨rfl, rfl, rfl, rfl⟩, body⟩

/-- The signature stays whole when code is prepared, and no equals sign comes below it. -/
theorem exists_normalizeCode_prepareCode {tail : Text} (follows : CommentFollows tail) :
    ∃ rest, normalizeCode (prepareCode (line.text ++ '\n' :: tail)) = line.text ++ '\n' :: rest ∧
      ∀ c ∈ (rest.dropWhile isBlank).head?, c ≠ '=' := by
  let below := '\n' :: parenthesizeFrom true (joinContinuedLines tail)
  obtain ⟨rest, visible, normalized⟩ :=
    @SpacedSignature.exists_normalizeCode_written below (by simp [EndsLine, below])
  have prepared := normalized .empty line.spaced none
  refine ⟨rest, ?_, ?_⟩
  · rw [prepareCode_text, ← text_spaced]
    exact prepared
  · rw [head?_dropWhile_isBlank, visible, firstVisible_cons_of_isBlank (by decide),
      firstVisible_parenthesizeFrom, ← head?_dropWhile_isBlank]
    intro c isFirst
    rw [follows.joinContinuedLines c isFirst]
    decide

theorem ofCode_text {tail : Text} (follows : CommentFollows tail) (module : Text) :
    ∃ definition, line.Describes module definition ∧
      Definition.ofCode line.name.text module (line.text ++ '\n' :: tail) =
        ⟨.ok (.function definition), []⟩ := by
  obtain ⟨rest, normalized, noEquals⟩ := line.exists_normalizeCode_prepareCode follows
  obtain ⟨definition, describes, read⟩ := line.read_head module
    (⟨.whitespace, '\n' :: rest.takeWhile isBlank⟩ :: tokensBelow rest)
  have tokens : lex (prepareCode (line.text ++ '\n' :: tail)) =
      ⟨.keyword, "function"⟩ :: (line.head.tokens ++
        ⟨.whitespace, '\n' :: rest.takeWhile isBlank⟩ :: tokensBelow rest) := by
    rw [lex, normalized, line.lexFrom_text noEquals]
  exact ⟨definition, describes, Definition.ofCode_of_read tokens rfl read⟩

/-- A signature goes through the whole reading of a file: whatever follows in the comment below
it, the function has the outputs and arguments of the line, and nothing is noticed. -/
theorem signature_round_trip {tail : Text} (follows : CommentFollows tail) (path : Text)
    {encodingName : Option Text} {encoding : Encoding} {bytes : List UInt8}
    (known : Definition.encodingOf? encodingName = some encoding)
    (decoded : unixNewlines (encoding.decode bytes) = line.text ++ '\n' :: tail) :
    ∃ definition,
      Definition.ofBytes line.name.text path encodingName bytes =
        ⟨.ok (.function definition), []⟩ ∧
      definition.name = some line.name.text ∧
      definition.outputs =
        (if line.outputs = [] then none else some (line.outputs.map Identifier.text)) ∧
      definition.arguments =
        (if line.arguments = [] then none else some (line.arguments.map Identifier.text)) := by
  obtain ⟨definition, describes, read⟩ :=
    line.ofCode_text follows (Definition.moduleOfPath path)
  refine ⟨definition, ?_, describes.name_eq, describes.outputs_eq, describes.arguments_eq⟩
  rw [Definition.ofBytes, known]
  simp [decoded, read]

def tally : SignatureLine where
  outputs := [⟨"total", rfl⟩, ⟨"count_2", rfl⟩]
  name := ⟨"tally", rfl⟩
  arguments := [⟨"function", rfl⟩]

def tallyBytes : List UInt8 :=
  ("function [total, count_2] = tally(function)\r\n  % x = f(y...)" : Text).map
    fun c => c.toNat.toUInt8

theorem signature_round_trip_tally :
    ∃ definition,
      Definition.ofBytes "tally" "lib/sums" none tallyBytes = ⟨.ok (.function definition), []⟩ ∧
      definition.name = some "tally" ∧
      definition.outputs = some (["total", "count_2"] : List Text) ∧
      definition.arguments = some (["function"] : List Text) :=
  have follows : CommentFollows "  % x = f(y...)" :=
    @commentFollows_append "  " "% x = f(y...)" (List.all_eq_true.mp (by decide)) (.comment _)
  have known : Definition.encodingOf? none = some .utf8 := rfl
  have decoded : unixNewlines (Encoding.decode .utf8 tallyBytes) =
      tally.text ++ '\n' :: "  % x = f(y...)" := by decide +kernel
  signature_round_trip tally follows "lib/sums" known decoded

end SignatureLine

end MatlabDocs
