import MatlabDocs.Proofs.Source.LeadingCharacters

/-!
# Blanks do not matter

A file that starts with a signature line is read alike whatever blanks and tabs are in the line,
if its gaps are tidy.  It is a function, or a script if the line is indented or its keyword is
destroyed by parentheses that are put into it, and then the first comment below the line is found.
-/

namespace MatlabDocs

open List Definition SpacedSignature

open ScriptDef

namespace SpacedSignature

variable (signature : SpacedSignature) {rest : Text}

def commentBelow (rest : Text) : Text :=
  firstComment (if signature.call.isSome then tokensBelow rest else lexFrom .code (some '\n') rest)

theorem commentBelow_squeezed :
    signature.squeezed.commentBelow rest = signature.commentBelow rest := by
  rw [commentBelow, commentBelow, call_squeezed, Option.isSome_map]

theorem firstComment_headText (below : ∀ c ∈ (rest.dropWhile isBlank).head?, c ≠ '=')
    (before : Option Char) :
    firstComment (lexFrom .functionHead before (signature.headText none ++ '\n' :: rest)) =
      signature.commentBelow rest := by
  rw [commentBelow]
  cases isCall : signature.call with
  | some call =>
    have blank : ∀ c ∈ (signature.callHead none call).ending, isBlank c :=
      signature.ending.isBlank_of_mem
    rw [← signature.text_callHead none isCall]
    exact (signature.callHead none call).firstComment_lexFrom blank below before
  | none =>
    cases isFound : signature.assignment with
    | none =>
      rw [headText_unassigned isFound isCall rfl]
      exact firstComment_lexFrom_uncalled uncalled_unassigned below before
    | some found =>
      have uncalled := @uncalled_assigned signature found
      have regrouped : signature.keywordGap.text ++ (found.outputs.text Identifier.text ++
          (found.before.text ++ '=' :: (found.after.text ++
            (signature.name.text ++ signature.ending.text)))) =
          (signature.keywordGap.text ++ (found.outputs.text Identifier.text ++
            (found.before.text ++ '=' :: found.after.text))) ++
            (signature.name.text ++ signature.ending.text) := by
        simp
      rw [headText_assigned isFound isCall]
      rw [regrouped] at uncalled ⊢
      exact firstComment_lexFrom_uncalled uncalled below before

theorem Permits.of_squeezed {signature : SpacedSignature} {mark : Option Mark}
    (permits : signature.squeezed.Permits mark) : signature.Permits mark where
  named := fun found isMark assigned => permits.named found isMark (by simpa using assigned)
  called := by
    intro call isCall notIgnored
    refine permits.called call.squeezed (by simp [isCall]) ?_
    rwa [call.inner_squeezed, Ne, head?_squeeze_eq_some_iff (by decide)]

end SpacedSignature

namespace Definition

variable {name module code : Text}

theorem outline_of_isScript (script : isScript (ofCode name module code)) :
    (ofCode name module code).result.map outline =
      .ok ⟨some name, none, none, firstComment (lex code)⟩ := by
  have noClass : ∀ reading : Reading ClassDef, isScript (reading.map .class) = false := by
    intro reading
    rw [isScript, Reading.map]
    cases reading.result with
    | ok definition => rfl
    | error fault => rfl
  rw [ofCode] at script ⊢
  dsimp only at script ⊢
  split at script
  · rename_i first others tokens
    by_cases isClass : first.isKeyword "classdef"
    · rw [if_pos isClass, noClass] at script
      cases script
    · by_cases isFunction : first.isKeyword "function"
      · rw [if_neg isClass, if_pos isFunction] at script
        cases script
      · rw [if_neg isClass, if_neg isFunction]
        rfl
  · rfl

theorem isScript_of_lex {token : Token} {others : List Token}
    (lexed : lex (prepareCode code) = token :: others) (notKeyword : token.kind ≠ .keyword) :
    isScript (ofCode name module code) := by
  have different : ∀ keyword : Text, ¬ token.isKeyword keyword := by
    intro keyword isKeyword
    have isToken : token = ⟨.keyword, keyword⟩ := eq_of_beq isKeyword
    exact notKeyword (congrArg Token.kind isToken)
  rw [ofCode, lexed]
  dsimp only
  rw [if_neg (different "classdef"), if_neg (different "function")]
  rfl

end Definition

/-- A signature with the blanks in front of its line. -/
structure IndentedSignature extends SpacedSignature where
  indentation : Gap

namespace IndentedSignature

variable (line : IndentedSignature)

def text : Text :=
  line.indentation.text ++ line.toSpacedSignature.text

def squeezed : IndentedSignature :=
  ⟨line.toSpacedSignature.squeezed, line.indentation.squeezed⟩

theorem squeezed_squeezed : line.squeezed.squeezed = line.squeezed := by
  rw [squeezed, squeezed, SpacedSignature.squeezed_squeezed, Gap.squeezed_squeezed]

theorem squeeze_text : squeeze line.text = line.squeezed.text := by
  have starts : ∀ c ∈ line.toSpacedSignature.text.head?, isIndent c = false :=
    fun c member => Option.some.inj member ▸ (by decide : isIndent 'f' = false)
  rw [text, line.indentation.squeeze_text_append starts, line.toSpacedSignature.squeeze_text]
  rfl

variable {line} {name module below : Text}

theorem text_of_indentation (unindented : line.indentation.text = []) :
    line.text = line.toSpacedSignature.text := by
  rw [text, unindented, nil_append]

/-- Behind blanks a signature is taken for a script. -/
theorem isScript_ofCode (indented : line.indentation.text ≠ []) :
    isScript (ofCode name module (line.text ++ below)) := by
  have indents := line.indentation.isIndent_of_mem
  obtain ⟨c, more, isIndentation⟩ := exists_cons_of_ne_nil indented
  have ne : ∀ {other}, isIndent other = false → c ≠ other :=
    fun fails => ne_of_test (indents c (by simp [isIndentation])) fails
  have noHeader : headerLength (line.toSpacedSignature.text ++ below) = 0 := by
    by_contra header
    rcases head_of_headerLength (by decide) header with indent | comment | lineFeed
    · exact absurd indent (by decide)
    · exact absurd comment (by decide)
    · exact absurd lineFeed (by decide)
  have kept : dropHeader (line.text ++ below) = line.text ++ below := by
    rw [text, append_assoc, dropHeader, headerLength_indent indents noHeader,
      Text.afterSeparators?, Option.getD_some]
  have isText : line.text ++ below = c :: (more ++ (line.toSpacedSignature.text ++ below)) := by
    rw [text, isIndentation, append_assoc, cons_append]
  obtain ⟨joined, isJoined⟩ := exists_joinContinuedLines_cons (ne (by decide))
    (more ++ (line.toSpacedSignature.text ++ below))
  obtain ⟨prepared, isPrepared⟩ := exists_parenthesizeFrom_cons true c joined
  obtain ⟨plain, isPlain⟩ := @exists_trim_cons [] (forall_mem_nil _) c (ne (by decide))
    (ne (by decide)) prepared
  have noMark : (c :: prepared).head? ≠ some byteOrderMark := by
    simpa using ne (show isIndent byteOrderMark = false by decide)
  have starts : normalizeCode (prepareCode (line.text ++ below)) = c :: (plain ++ ['\n']) := by
    rw [prepareCode, kept, isText, isJoined, addParentheses, isPrepared,
      normalizeCode_unmarked noMark, ← nil_append (c :: prepared), isPlain, cons_append]
  exact Definition.isScript_ofCode starts (ne (by decide)) (ne (by decide))

variable {rest : Text}

theorem ne_equals_of_firstVisible (noEquals : firstVisible rest ≠ some '=') :
    ∀ c ∈ (rest.dropWhile isBlank).head?, c ≠ '=' := by
  rw [head?_dropWhile_isBlank]
  rintro c member rfl
  exact noEquals member

theorem outline_of_isScript
    (normalized : normalizeCode (line.text ++ below) = line.text ++ '\n' :: rest)
    (noEquals : firstVisible rest ≠ some '=')
    (script : Definition.isScript (Definition.ofCode name module (line.text ++ below))) :
    (Definition.ofCode name module (line.text ++ below)).result.map Definition.outline =
      .ok ⟨some name, none, none, line.commentBelow rest⟩ := by
  have lexed := line.toSpacedSignature.lexFrom_written none rfl line.indentation rest
  rw [← append_assoc] at lexed
  rw [Definition.outline_of_isScript script, lex, normalized, text, SpacedSignature.text, lexed,
    firstComment_cons rfl,
    line.firstComment_headText (ne_equals_of_firstVisible noEquals) (some 'n')]

theorem outline_of_intact {mark : Option Mark} (tidy : line.IsTidy)
    (unindented : line.indentation.text = []) (permits : line.Permits mark)
    (intact : putMark mark "function" = "function") (noEquals : firstVisible rest ≠ some '=')
    (prepared : normalizeCode (prepareCode (line.toSpacedSignature.text ++ below)) =
      line.toSpacedSignature.written mark ++ '\n' :: rest) :
    (Definition.ofCode name module (line.text ++ below)).result.map Definition.outline =
      .ok (line.outline mark name rest) := by
  have lexed := line.toSpacedSignature.lexFrom_written mark intact .empty rest
  have tokens : lex (prepareCode (line.text ++ below)) = ⟨.keyword, "function"⟩ ::
      lexFrom .functionHead (some 'n') (line.headText mark ++ '\n' :: rest) := by
    rw [lex, text_of_indentation unindented, prepared]
    exact lexed
  rw [ofCode_of_read tokens rfl rfl]
  exact congrArg Except.ok (outline_read name module
    (ne_equals_of_firstVisible noEquals) _ (some 'n') tidy permits)

private theorem isScript_of_broken {mark : Option Mark} (unindented : line.indentation.text = [])
    (broken : putMark mark "function" ≠ "function")
    (prepared : normalizeCode (prepareCode (line.toSpacedSignature.text ++ below)) =
      line.toSpacedSignature.written mark ++ '\n' :: rest) :
    isScript (ofCode name module (line.text ++ below)) := by
  cases mark with
  | none => exact absurd rfl broken
  | some mark =>
    obtain ⟨word, more, isKeyword, starts, notEmpty⟩ :=
      ((putBehind_putMark mark "function").eq_or_first mark.name_ne_nil).resolve_left broken
    have lexed : lex (prepareCode (line.text ++ below)) = lexFrom .code none
        (word ++ '(' :: (more ++ (line.headText (some mark) ++ '\n' :: rest))) := by
      rw [lex, text_of_indentation unindented, prepared, written_eq_headText,
        isKeyword, append_assoc, append_assoc, cons_append]
    obtain ⟨c, letters, rfl⟩ := exists_cons_of_ne_nil notEmpty
    obtain ⟨token, others, isFirst, _⟩ := @exists_lexFrom_cons none c
      (letters ++ '(' :: (more ++ (line.headText (some mark) ++ '\n' :: rest)))
    exact isScript_of_lex (lexed.trans isFirst) (ne_keyword_of_lexFrom starts notEmpty isFirst)

/-- The outlines of all tidy lines with the same words and gaps are the same. -/
private theorem exists_outline (shape : IndentedSignature) (endsLine : EndsLine below)
    (noEquals : firstVisible (joinContinuedLines below) ≠ some '=') (name module : Text) :
    ∃ outline : Outline, outline.name = some name ∧
      (shape.indentation.text = [] → ∀ call, shape.call = some call →
        call.inner.head? ≠ some '~' →
          outline.outputs = shape.outputNames none ∧ outline.arguments = call.argumentNames) ∧
      ∀ line : IndentedSignature, line.squeezed = shape → line.IsTidy →
        (Definition.ofCode name module (line.text ++ below)).result.map Definition.outline =
          .ok outline := by
  obtain ⟨plain, plainVisible, normalized⟩ := exists_normalizeCode_written endsLine
  have plainNoEquals : firstVisible plain ≠ some '=' := by
    rw [plainVisible]
    exact fun isFirst => noEquals (firstVisible_joinContinuedLines (by decide) isFirst)
  have asScript : ∀ line : IndentedSignature, line.squeezed = shape →
      isScript (ofCode name module (line.text ++ below)) →
      (Definition.ofCode name module (line.text ++ below)).result.map Definition.outline =
        .ok ⟨some name, none, none, shape.commentBelow plain⟩ := by
    rintro line rfl script
    rw [outline_of_isScript (normalized line.indentation line.toSpacedSignature none) plainNoEquals
      script]
    exact congrArg (fun docstring => Except.ok (Outline.mk (some name) none none docstring))
      line.commentBelow_squeezed.symm
  have sameIndentation : ∀ line : IndentedSignature, line.squeezed = shape →
      (line.indentation.text = [] ↔ shape.indentation.text = []) := by
    rintro line rfl
    exact line.indentation.squeezed_text_eq_nil_iff.symm
  by_cases unindented : shape.indentation.text = []
  · obtain ⟨mark, rest, permits, visible, prepared⟩ :=
      shape.toSpacedSignature.exists_normalizeCode_prepareCode endsLine
    rw [← visible] at noEquals
    by_cases intact : putMark mark "function" = "function"
    · refine ⟨shape.outline mark name rest, shape.name_outline mark name rest, ?_, ?_⟩
      · intro _ call isCall notIgnored
        obtain rfl := permits.called call isCall notIgnored
        rw [SpacedSignature.outline, isCall]
        exact ⟨rfl, rfl⟩
      · rintro line rfl tidy
        rw [outline_of_intact tidy ((sameIndentation line rfl).mpr unindented) permits.of_squeezed
          intact noEquals (prepared line.toSpacedSignature rfl)]
        exact congrArg Except.ok (line.outline_squeezed mark name rest).symm
    · refine ⟨⟨some name, none, none, shape.commentBelow plain⟩, rfl, ?_, ?_⟩
      · intro _ call isCall notIgnored
        obtain rfl := permits.called call isCall notIgnored
        exact absurd rfl intact
      · rintro line rfl _
        exact asScript line rfl (isScript_of_broken ((sameIndentation line rfl).mpr unindented)
          intact (prepared line.toSpacedSignature rfl))
  · refine ⟨⟨some name, none, none, shape.commentBelow plain⟩, rfl,
      fun absent => absurd absent unindented, fun line isShape _ => ?_⟩
    exact asScript line isShape (isScript_ofCode (mt (sameIndentation line isShape).mp unindented))

end IndentedSignature

/-- Replacing runs of blanks and tabs in the signature that a file starts with by other runs leaves
its outline as it is, if the gaps are tidy and the code below does not start with an equals sign.
The words of a signature with a call are then found one by one, unless an ignored argument stands
right behind the parenthesis. -/
theorem signature_blanks_irrelevant {first second : IndentedSignature} (firstTidy : first.IsTidy)
    (secondTidy : second.IsTidy) (alike : squeeze first.text = squeeze second.text)
    {below : Text} (endsLine : EndsLine below)
    (noEquals : firstVisible (joinContinuedLines below) ≠ some '=') (name path : Text)
    {encodingName : Option Text} {encoding : Encoding} {firstBytes secondBytes : List UInt8}
    (known : Definition.encodingOf? encodingName = some encoding)
    (firstDecoded : unixNewlines (encoding.decode firstBytes) = first.text ++ below)
    (secondDecoded : unixNewlines (encoding.decode secondBytes) = second.text ++ below) :
    ∃ outline : Outline,
      (Definition.ofBytes name path encodingName firstBytes).result.map Definition.outline =
        .ok outline ∧
      (Definition.ofBytes name path encodingName secondBytes).result.map Definition.outline =
        .ok outline ∧
      outline.name = some name ∧
      (first.indentation.text = [] → ∀ call, first.call = some call →
        call.inner.head? ≠ some '~' →
          outline.outputs = first.outputNames none ∧ outline.arguments = call.argumentNames) := by
  have sameShape : first.squeezed.text = second.squeezed.text := by
    rw [← first.squeeze_text, ← second.squeeze_text, alike]
  obtain ⟨outline, named, words, outlines⟩ :=
    first.squeezed.exists_outline endsLine noEquals name (moduleOfPath path)
  obtain ⟨other, _, _, others⟩ :=
    second.squeezed.exists_outline endsLine noEquals name (moduleOfPath path)
  -- Both outlines are that of the squeezed line, which the two have in common.
  have same : (Except.ok outline : Except Fault Outline) = .ok other := by
    rw [← outlines first.squeezed first.squeezed_squeezed first.isTidy_squeezed,
      ← others second.squeezed second.squeezed_squeezed second.isTidy_squeezed, sameShape]
  refine ⟨outline, ?_, ?_, named, ?_⟩
  · rw [ofBytes, known]
    simp only [firstDecoded]
    exact outlines first rfl firstTidy
  · rw [ofBytes, known, same]
    simp only [secondDecoded]
    exact others second rfl secondTidy
  · intro unindented call isCall notIgnored
    have isShape : first.squeezed.call = some call.squeezed := by
      rw [IndentedSignature.squeezed, call_squeezed, isCall, Option.map_some]
    have notIgnoredInShape : call.squeezed.inner.head? ≠ some '~' := by
      rwa [call.inner_squeezed, Ne, head?_squeeze_eq_some_iff (by decide)]
    obtain ⟨isOutputs, isArguments⟩ := words
      (first.indentation.squeezed_text_eq_nil_iff.mpr unindented) call.squeezed isShape
      notIgnoredInShape
    exact ⟨isOutputs.trans (first.outputNames_squeezed none),
      isArguments.trans call.argumentNames_squeezed⟩

def tallySignature (wide narrow : Gap) : IndentedSignature where
  keywordGap := wide
  assignment := some ⟨.commas [.item narrow ⟨"total", Eq.refl true⟩ wide,
    .item wide ⟨"count", rfl⟩ narrow], narrow, wide⟩
  name := ⟨"tally", Eq.refl true⟩
  call := some ⟨narrow, [.item narrow (.named ⟨"x", Eq.refl true⟩) wide,
    .item wide .ignored narrow]⟩
  ending := narrow
  spaced := fun _ => ⟨_, rfl, rfl⟩
  indentation := .empty

theorem isTidy_tallySignature {wide narrow : Gap} (noTab : '\t' ∉ narrow.text) :
    (tallySignature wide narrow).IsTidy where
  keyword := nofun
  separators := by
    intro found isFound
    obtain rfl := Option.some.inj isFound
    rfl
  closing := by
    intro found isFound _
    obtain rfl := Option.some.inj isFound
    exact noTab

def evenTallyBytes : List UInt8 :=
  bytesOf "function [ total , count ] = tally ( x , ~ ) \n% tallies"

def unevenTallyBytes : List UInt8 :=
  bytesOf "function\t [  total\t ,\t count  ]  =\t tally  (  x\t ,\t ~  )  \n% tallies"

theorem signature_blanks_irrelevant_tally :
    ∃ outline : Outline,
      (Definition.ofBytes "tally" "lib" none evenTallyBytes).result.map Definition.outline =
        .ok outline ∧
      (Definition.ofBytes "tally" "lib" none unevenTallyBytes).result.map Definition.outline =
        .ok outline ∧
      outline.name = some "tally" ∧ outline.outputs = some (["total", "count"] : List Text) ∧
      outline.arguments = some (["x", "~"] : List Text) := by
  let wide : Gap := ⟨"\t ", List.all_eq_true.mp (by decide)⟩
  let narrow : Gap := ⟨"  ", List.all_eq_true.mp (by decide)⟩
  have alike : squeeze (tallySignature .blank .blank).text =
      squeeze (tallySignature wide narrow).text := by decide +kernel
  have endsLine : EndsLine "\n% tallies" := by simp [EndsLine]
  have noEquals : firstVisible (joinContinuedLines "\n% tallies") ≠ some '=' := by decide +kernel
  have known : encodingOf? none = some .utf8 := rfl
  have evenDecoded : unixNewlines (Encoding.decode .utf8 evenTallyBytes) =
      (tallySignature .blank .blank).text ++ "\n% tallies" := by decide +kernel
  have unevenDecoded : unixNewlines (Encoding.decode .utf8 unevenTallyBytes) =
      (tallySignature wide narrow).text ++ "\n% tallies" := by decide +kernel
  obtain ⟨outline, isFirst, isSecond, named, words⟩ := signature_blanks_irrelevant
    (isTidy_tallySignature (by decide)) (isTidy_tallySignature (by decide)) alike endsLine noEquals
    "tally" "lib" known evenDecoded unevenDecoded
  obtain ⟨isOutputs, isArguments⟩ := words rfl _ rfl (by decide)
  exact ⟨outline, isFirst, isSecond, named, isOutputs, isArguments⟩

/-- Lines that differ in their blanks only and are not read alike: outputs with two blanks between
them, a tab behind the closing bracket, two blanks in front of a lone name, and two blanks in front
of the equals sign if the code below starts with another one. -/
theorem signature_blanks_misread :
    (squeeze "function [a  b] = f(x)" = squeeze "function [a b] = f(x)" ∧
      (Definition.ofCode "f" "p" "function [a b] = f(x)\n% doc\n").result.map
        Definition.outline = .ok ⟨some "f", some ["a", "b"], some ["x"], " doc\n"⟩ ∧
      (Definition.ofCode "f" "p" "function [a  b] = f(x)\n% doc\n").result.map
        Definition.outline = .ok ⟨some "f", some ["a", "", "b"], some ["x"], " doc\n"⟩) ∧
    (squeeze "function [a]\t= f(x)" = squeeze "function [a] = f(x)" ∧
      (Definition.ofCode "f" "p" "function [a] = f(x)\n% doc\n").result.map
        Definition.outline = .ok ⟨some "f", some ["a"], some ["x"], " doc\n"⟩ ∧
      (Definition.ofCode "f" "p" "function [a]\t= f(x)\n% doc\n").result.map
        Definition.outline = .ok ⟨some "f", some ["a]"], some ["x"], " doc\n"⟩) ∧
    (squeeze "function  f" = squeeze "function f" ∧
      (Definition.ofCode "f" "p" "function f\n% doc\n").result.map
        Definition.outline = .ok ⟨some "f", none, none, " doc\n"⟩ ∧
      (Definition.ofCode "f" "p" "function  f\n% doc\n").result.map
        Definition.outline = .ok ⟨some "f", none, none, ""⟩) ∧
    (squeeze "function y  = f(x)" = squeeze "function y = f(x)" ∧
      (Definition.ofCode "f" "p" "function y = f(x)\n= g(x)\n").result.map
        Definition.outline = .ok ⟨some "f", some ["y", "=", "f(x)"], none, ""⟩ ∧
      (Definition.ofCode "f" "p" "function y  = f(x)\n= g(x)\n").result.map
        Definition.outline = .ok ⟨some "f", some ["y", "", "=", "f(x)"], none, ""⟩) := by
  decide +kernel

end MatlabDocs
