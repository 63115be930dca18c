import MatlabDocs.Proofs.Function.SignatureRoundTrip

/-!
# Comment headers do not matter

Any number of comment lines and blank lines may stand in front of a function or a class: the
lines of the header are counted by every kind of line break, but are cut off at line feeds, and
no other line break can stand in them.
-/

namespace MatlabDocs

open List Definition

/-- A line with nothing but blanks and tabs, or with a comment behind them. -/
structure HeaderLine where
  indent : Text
  comment : Option Text
  isIndent_of_mem : ∀ c ∈ indent, isIndent c
  oneLine : ∀ text ∈ comment, ∀ c ∈ text, isLineBreak c = false

namespace HeaderLine

variable (line : HeaderLine)

def commentText : Text :=
  match line.comment with
  | none => []
  | some text => '%' :: text

def text : Text :=
  line.indent ++ line.commentText

theorem not_isLineBreak_of_isIndent {c : Char} (indent : isIndent c) : isLineBreak c = false := by
  rw [isIndent, Bool.or_eq_true, beq_iff_eq, beq_iff_eq] at indent
  rcases indent with rfl | rfl
  · decide
  · decide

theorem not_isLineBreak_of_mem : ∀ c ∈ line.text, isLineBreak c = false := by
  refine forall_mem_append.mpr ⟨?_, ?_⟩
  · intro c member
    exact not_isLineBreak_of_isIndent (line.isIndent_of_mem c member)
  · rw [commentText]
    cases comment : line.comment with
    | none => simp
    | some text => exact forall_mem_cons.mpr ⟨by decide, line.oneLine text comment⟩

theorem isHeaderLine_text : isHeaderLine (line.text ++ ['\n']) := by
  rw [isHeaderLine, text, append_assoc, dropWhile_append_of_pos line.isIndent_of_mem, commentText]
  cases line.comment with
  | none => rfl
  | some text => rfl

end HeaderLine

theorem Text.fullLines_append {line : Text} (oneLine : ∀ c ∈ line, isLineBreak c = false)
    (rest : Text) : fullLines (line ++ '\n' :: rest) = (line ++ ['\n']) :: fullLines rest := by
  induction line with
  | nil => rfl
  | cons c line ih =>
    obtain ⟨notBreak, others⟩ := forall_mem_cons.mp oneLine
    have notReturn : c ≠ '\r' := by
      intro same
      rw [same] at notBreak
      exact absurd notBreak (by decide)
    rw [cons_append, fullLines.eq_3 c _ fun _ same _ => notReturn same,
      if_neg (by simp [notBreak]), ih others]
    rfl

theorem Text.afterSeparators?_append {separator : Char} {line : Text} (absent : separator ∉ line)
    (count : Nat) (rest : Text) :
    afterSeparators? separator (count + 1) (line ++ separator :: rest) =
      afterSeparators? separator count rest := by
  induction line with
  | nil => rw [nil_append, afterSeparators?, if_pos rfl]
  | cons c line ih =>
    have different : c ≠ separator := fun same => absent (by simp [same])
    rw [cons_append, afterSeparators?, if_neg different]
    exact ih fun member => absent (mem_cons_of_mem c member)

variable (lines : List HeaderLine)

def headerText : Text :=
  lines.flatMap fun line => line.text ++ ['\n']

theorem dropHeader_line (line : HeaderLine) (code : Text) :
    dropHeader (line.text ++ '\n' :: code) = dropHeader code := by
  have oneLine := line.not_isLineBreak_of_mem
  have counted : headerLength (line.text ++ '\n' :: code) = headerLength code + 1 := by
    rw [headerLength, Text.fullLines_append oneLine,
      takeWhile_cons_of_pos line.isHeaderLine_text, length_cons, headerLength]
  have absent : '\n' ∉ line.text := fun member => absurd (oneLine _ member) (by decide)
  rw [dropHeader, counted, Text.afterSeparators?_append absent, dropHeader]

theorem dropHeader_headerText (code : Text) :
    dropHeader (headerText lines ++ code) = dropHeader code := by
  induction lines with
  | nil => rfl
  | cons line lines ih =>
    have split : headerText (line :: lines) ++ code =
        line.text ++ '\n' :: (headerText lines ++ code) := by
      simp [headerText]
    rw [split, dropHeader_line, ih]

theorem return_not_mem_headerText : '\r' ∉ headerText lines := by
  intro member
  obtain ⟨line, _, inLine⟩ := mem_flatMap.mp member
  rcases mem_append.mp inLine with inText | isEnd
  · exact absurd (line.not_isLineBreak_of_mem _ inText) (by decide)
  · exact absurd isEnd (by decide)

/-- What is not read as a script depends on the tokens of the prepared code only. -/
theorem Definition.ofCode_of_lex_eq {name module code other : Text}
    (same : lex (prepareCode other) = lex (prepareCode code))
    (noScript : ∀ script, (ofCode name module code).result ≠ .ok (.script script)) :
    ofCode name module other = ofCode name module code := by
  have scripted := noScript (ScriptDef.read name module (lex code))
  rw [ofCode] at scripted ⊢
  rw [same]
  rw [ofCode]
  dsimp only at scripted ⊢
  split
  · rename_i first rest tokens
    rw [tokens] at scripted
    dsimp only at scripted
    by_cases isClass : first.isKeyword "classdef"
    · rw [if_pos isClass, if_pos isClass]
    · by_cases isFunction : first.isKeyword "function"
      · rw [if_neg isClass, if_pos isFunction, if_neg isClass, if_pos isFunction]
      · rw [if_neg isClass, if_neg isFunction] at scripted
        exact absurd rfl scripted
  · rename_i tokens
    rw [tokens] at scripted
    exact absurd rfl scripted

/-- A header goes with the code below it: the code is the same once the header is dropped.  So a
file that is not a script is read as the same definition with the header and without it. -/
theorem comment_header_irrelevant (lines : List HeaderLine) :
    (∀ code, dropHeader (headerText lines ++ code) = dropHeader code) ∧
    ∀ (name path : Text) (encodingName : Option Text) (encoding : Encoding)
      (bytes withHeader : List UInt8),
      Definition.encodingOf? encodingName = some encoding →
      encoding.decode withHeader = headerText lines ++ encoding.decode bytes →
      (∀ script, (Definition.ofBytes name path encodingName bytes).result ≠ .ok (.script script)) →
      Definition.ofBytes name path encodingName withHeader =
        Definition.ofBytes name path encodingName bytes := by
  refine ⟨dropHeader_headerText lines, ?_⟩
  intro name path encodingName encoding bytes withHeader known decoded noScript
  rw [ofBytes, known] at noScript ⊢
  dsimp only at noScript ⊢
  rw [ofBytes, known]
  dsimp only
  refine ofCode_of_lex_eq (congrArg lex ?_) noScript
  rw [decoded, unixNewlines_append (return_not_mem_headerText lines), prepareCode,
    dropHeader_headerText, prepareCode]

def licenceLine : HeaderLine where
  indent := []
  comment := some "\x7b Licence... %%"
  isIndent_of_mem := forall_mem_empty isIndent
  oneLine := by
    intro text isText
    obtain rfl := Option.some.inj isText
    intro c member
    exact Bool.eq_false_iff.mpr (any_eq_false.mp (by decide) c member)

def gapLine : HeaderLine where
  indent := " \t"
  comment := none
  isIndent_of_mem := all_eq_true.mp (by decide)
  oneLine := by simp

def licence : List HeaderLine :=
  [licenceLine, gapLine]

def scaleLine : SignatureLine where
  outputs := [⟨"y", rfl⟩]
  name := ⟨"scale", rfl⟩
  arguments := [⟨"x", Eq.refl true⟩]

def bytesOf (text : Text) : List UInt8 :=
  text.map fun c => c.toNat.toUInt8

def scaleCode : Text :=
  "function y = scale(x)\n% scales"

theorem comment_header_irrelevant_licence :
    Definition.ofBytes "scale" "lib" none (bytesOf (headerText licence ++ scaleCode)) =
      Definition.ofBytes "scale" "lib" none (bytesOf scaleCode) :=
  have known : encodingOf? none = some .utf8 := rfl
  have code : unixNewlines (Encoding.decode .utf8 (bytesOf scaleCode)) =
      scaleLine.text ++ '\n' :: '%' :: " scales" := by decide +kernel
  have decoded : Encoding.decode .utf8 (bytesOf (headerText licence ++ scaleCode)) =
      headerText licence ++ Encoding.decode .utf8 (bytesOf scaleCode) := by decide +kernel
  have noScript : ∀ script, (ofBytes "scale" "lib" none (bytesOf scaleCode)).result ≠
      .ok (.script script) := by
    intro script
    have follows : CommentFollows ('%' :: " scales") :=
      @commentFollows_append [] _ (by simp) (.comment " scales")
    obtain ⟨definition, _, read⟩ := scaleLine.ofCode_text follows (moduleOfPath "lib")
    rw [ofBytes, known]
    dsimp only
    have named : scaleLine.name.text = "scale" := rfl
    rw [code, ← named, read]
    intro same
    cases same
  (comment_header_irrelevant licence).2 "scale" "lib" none .utf8 (bytesOf scaleCode)
    (bytesOf (headerText licence ++ scaleCode)) known decoded noScript

end MatlabDocs
