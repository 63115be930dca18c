import MatlabDocs.Proofs.Function.SpacedSignature

/-!
# Names in lists with any blanks

The arguments of a signature are read word by word, whatever the gaps around them.  So are its
outputs, if their gaps are tidy: a tab behind the closing bracket would not be taken off, and two
blanks between outputs without commas would leave an empty word between them.
-/

namespace MatlabDocs

open List FunctionDef Text

namespace Text

variable {separator : Char} {text : Text}

/-- Blanks around a text do not change its stripped pieces. -/
theorem map_strip_splitOn_append {front back : Text} (notBlank : isBlank separator = false)
    (blankFront : ∀ c ∈ front, isBlank c) (blankBack : ∀ c ∈ back, isBlank c) :
    (splitOn separator (front ++ (text ++ back))).map strip =
      (splitOn separator text).map strip := by
  induction front with
  | nil =>
    have plain : separator ∉ back :=
      fun member => ne_of_test (blankBack separator member) notBlank rfl
    obtain ⟨pieces, last, isSplit, isLonger⟩ := exists_splitOn_append plain text
    rw [nil_append, isSplit, isLonger, map_append, map_append, map_singleton,
      map_singleton, strip_append_of_blank_right blankBack]
  | cons c front ih =>
    obtain ⟨blank, others⟩ := forall_mem_cons.mp blankFront
    rw [cons_append, map_strip_splitOn_cons blank (ne_of_test blank notBlank),
      ih others]

theorem map_strip_splitOn_trim {drop : Char → Bool} (notBlank : isBlank separator = false)
    (blank : ∀ c ∈ text, drop c → isBlank c) :
    (splitOn separator (trim drop text)).map strip = (splitOn separator text).map strip := by
  obtain ⟨front, back, split, dropped, _, _⟩ := exists_append_trim_append drop text
  obtain ⟨droppedFront, droppedBack⟩ := forall_mem_append.mp dropped
  have members : ∀ c ∈ front ++ trim drop text ++ back, drop c → isBlank c := by
    rw [← split]
    exact blank
  rw [append_assoc] at members split
  have blankFront : ∀ c ∈ front, isBlank c := fun c member =>
    members c (mem_append_left _ member) (droppedFront c member)
  have blankBack : ∀ c ∈ back, isBlank c := fun c member =>
    members c (mem_append_right _ (mem_append_right _ member)) (droppedBack c member)
  calc
    (splitOn separator (trim drop text)).map strip =
        (splitOn separator (front ++ (trim drop text ++ back))).map strip :=
      (map_strip_splitOn_append notBlank blankFront blankBack).symm
    _ = (splitOn separator text).map strip := by rw [← split]

theorem trim_append_of_dropped {drop : Char → Bool} {front back : Text}
    (droppedFront : ∀ c ∈ front, drop c) (droppedBack : ∀ c ∈ back, drop c) (text : Text) :
    trim drop (front ++ (text ++ back)) = trim drop text := by
  rw [trim, dropWhile_append_of_pos droppedFront, trim, dropWhile_append]
  split
  · rename_i nothing
    rw [List.isEmpty_iff.mp nothing, dropWhile_eq_nil_iff.mpr droppedBack]
  · exact trimRight_append droppedBack

end Text

section

variable {α : Type} {spell : α → Text}

theorem Cell.strip_text (spelling : IsSpelling spell) (cell : Cell α) :
    (cell.text spell).strip = cell.bare spell := by
  cases cell with
  | nothing gap =>
    have nothing := strip_append_of_blank gap.isBlank_of_mem []
    rw [append_nil] at nothing
    exact nothing
  | item front word back =>
    refine trim_append front.isBlank_of_mem back.isBlank_of_mem (spelling.ne_nil word) ?_ ?_
    · exact fun c member => spelling.not_isBlank word c (mem_of_head? member)
    · exact fun c member => spelling.not_isBlank word c (mem_of_getLast? member)

theorem Cell.forall_mem_text {holds : Char → Prop} (words : ∀ word, ∀ c ∈ spell word, holds c)
    (indents : ∀ c, isIndent c → holds c) (cell : Cell α) : ∀ c ∈ cell.text spell, holds c := by
  have gaps : ∀ gap : Gap, ∀ c ∈ gap.text, holds c :=
    fun gap c member => indents c (gap.isIndent_of_mem c member)
  cases cell with
  | nothing gap => exact gaps gap
  | item front word back =>
    exact forall_mem_append.mpr ⟨gaps front, forall_mem_append.mpr ⟨words word, gaps back⟩⟩

theorem forall_mem_cellsText {holds : Char → Prop} (words : ∀ word, ∀ c ∈ spell word, holds c)
    (indents : ∀ c, isIndent c → holds c) (comma : holds ',') (cells : List (Cell α)) :
    ∀ c ∈ cellsText spell cells, holds c := by
  match cells with
  | [] => exact fun c member => absurd member not_mem_nil
  | [cell] =>
    rw [cellsText_singleton]
    exact cell.forall_mem_text words indents
  | cell :: next :: cells =>
    rw [cellsText_cons_cons]
    exact forall_mem_append.mpr ⟨cell.forall_mem_text words indents,
      forall_mem_cons.mpr ⟨comma, forall_mem_cellsText words indents comma (next :: cells)⟩⟩

theorem IsSpelling.ne (spelling : IsSpelling spell) {sign : Char}
    (other : isSpelledCharacter sign = false) (word : α) : ∀ c ∈ spell word, c ≠ sign :=
  fun c member => ne_of_test (spelling.isSpelled word c member) other

theorem map_strip_splitOn_cellsText (spelling : IsSpelling spell) {cells : List (Cell α)}
    (notEmpty : cells ≠ []) :
    ((cellsText spell cells).splitOn ',').map Text.strip = cells.map (Cell.bare spell) := by
  obtain ⟨first, others, rfl⟩ := exists_cons_of_ne_nil notEmpty
  have plain : ∀ piece ∈ (first :: others).map (Cell.text spell), ',' ∉ piece := by
    intro piece member
    obtain ⟨cell, _, rfl⟩ := mem_map.mp member
    exact forall_mem_ne'.mp
      (cell.forall_mem_text (spelling.ne (by decide)) fun c indent => ne_of_test indent (by decide))
  rw [cellsText, map_cons, splitOn_joinWith plain, ← map_cons, List.map_map]
  exact map_congr_left fun cell _ => cell.strip_text spelling

end

namespace FunctionDef

def namesInPieces : List Text → Option (List Text)
  | [only] =>
    if only = [] then none
    else if only.any isIndent then some ((only.splitOn '\t').flatMap (·.splitOn ' '))
    else some [only]
  | names => some names

theorem outputNames_eq (text : Text) :
    outputNames text = namesInPieces
      (((text.trim fun c => c == '[' || c == ' ' || c == ']').splitOn ',').map Text.strip) :=
  rfl

def foundNames (words : List Text) : Option (List Text) :=
  if words = [] ∨ words = [[]] then none else some words

theorem namesInPieces_singleton {piece : Text} (plain : piece.any isIndent = false) :
    namesInPieces [piece] = foundNames [piece] := by
  by_cases empty : piece = []
  · simp [namesInPieces, foundNames, empty]
  · simp [namesInPieces, foundNames, empty, plain]

end FunctionDef

namespace SpacedOutputs

section

variable {spell : Identifier → Text} {holds : Char → Prop}

theorem forall_mem_othersText (words : ∀ word, ∀ c ∈ spell word, holds c)
    (indents : ∀ c, isIndent c → holds c) (others : List (Separator × Identifier)) :
    ∀ c ∈ othersText spell others, holds c := by
  intro c member
  obtain ⟨other, _, inOther⟩ := mem_flatMap.mp member
  rcases mem_append.mp inOther with inGap | inWord
  · exact indents c (other.1.isIndent_of_mem c inGap)
  · exact words other.2 c inWord

theorem forall_mem_inner (words : ∀ word, ∀ c ∈ spell word, holds c)
    (indents : ∀ c, isIndent c → holds c) (comma : holds ',') (outputs : SpacedOutputs) :
    ∀ c ∈ outputs.inner spell, holds c := by
  cases outputs with
  | single word => exact words word
  | commas cells => exact forall_mem_cellsText words indents comma cells
  | gaps front first others back =>
    have gaps : ∀ gap : Gap, ∀ c ∈ gap.text, holds c :=
      fun gap c member => indents c (gap.isIndent_of_mem c member)
    exact forall_mem_append.mpr ⟨gaps front, forall_mem_append.mpr
      ⟨words first, forall_mem_append.mpr ⟨forall_mem_othersText words indents others, gaps back⟩⟩⟩

end

variable {spell : Identifier → Text} (spelling : IsSpelling spell)

include spelling

theorem not_isIndent_spell (word : Identifier) : (spell word).any isIndent = false := by
  rw [any_eq_false]
  intro c member
  simp [spelling.not_isIndent word c member]

theorem flatMap_splitOn_othersText (first : Identifier) {others : List (Separator × Identifier)}
    (tidy : ∀ other ∈ others, other.1.text.length = 1) :
    (Text.splitOn '\t' (spell first ++ othersText spell others)).flatMap (·.splitOn ' ') =
      spell first :: others.map fun other => spell other.2 := by
  have noBlank := spelling.not_mem (show isSpelledCharacter ' ' = false by decide)
  have noTab := spelling.not_mem (show isSpelledCharacter '\t' = false by decide)
  induction others generalizing first with
  | nil =>
    rw [othersText, flatMap_nil, append_nil, Text.splitOn_of_not_mem (noTab first),
      flatMap_singleton, Text.splitOn_of_not_mem (noBlank first)]
    rfl
  | cons other others ih =>
    obtain ⟨isSingle, tidyOthers⟩ := forall_mem_cons.mp tidy
    obtain ⟨sign, isSign⟩ := length_eq_one_iff.mp isSingle
    have later := ih other.2 tidyOthers
    have shape : othersText spell (other :: others) =
        sign :: (spell other.2 ++ othersText spell others) := by
      rw [othersText, flatMap_cons, isSign]
      rfl
    have indent : sign = ' ' ∨ sign = '\t' := by
      have isIndent_sign := other.1.isIndent_of_mem sign (by simp [isSign])
      simpa [isIndent] using isIndent_sign
    rw [shape, map_cons, ← later]
    rcases indent with rfl | rfl
    · -- The blank stays in the piece between tabs and is then taken for a separator.
      obtain ⟨piece, pieces, split⟩ :=
        Text.exists_splitOn_eq_cons '\t' (spell other.2 ++ othersText spell others)
      have joined : Text.splitOn '\t'
          (spell first ++ ' ' :: (spell other.2 ++ othersText spell others)) =
          (spell first ++ ' ' :: piece) :: pieces := by
        have plain : '\t' ∉ spell first ++ [' '] := by
          simp [noTab first]
        have whole := Text.splitOn_append_of_not_mem plain split
        rwa [append_assoc, append_assoc] at whole
      rw [joined, split, flatMap_cons, flatMap_cons,
        Text.splitOn_append_cons (noBlank first), cons_append]
    · rw [Text.splitOn_append_cons (noTab first), flatMap_cons,
        Text.splitOn_of_not_mem (noBlank first)]
      rfl

private theorem strip_inner_gaps (front : Gap) (first : Identifier)
    (others : List (Separator × Identifier)) (back : Gap) :
    Text.strip ((gaps front first others back).inner spell) =
      spell first ++ othersText spell others := by
  have notEmpty : spell first ++ othersText spell others ≠ [] :=
    append_ne_nil_of_left_ne_nil (spelling.ne_nil first) _
  have lastWord : ∀ c ∈ (spell first ++ othersText spell others).getLast?,
      isSpelledCharacter c := by
    induction others generalizing first with
    | nil =>
      intro c member
      rw [othersText, flatMap_nil, append_nil] at member
      exact spelling.isSpelled first c (mem_of_getLast? member)
    | cons other others ih =>
      have later := ih other.2 (append_ne_nil_of_left_ne_nil (spelling.ne_nil other.2) _)
      have shape : spell first ++ othersText spell (other :: others) =
          (spell first ++ other.1.text) ++ (spell other.2 ++ othersText spell others) := by
        simp [othersText]
      have notEmpty : spell other.2 ++ othersText spell others ≠ [] :=
        append_ne_nil_of_left_ne_nil (spelling.ne_nil other.2) _
      rwa [shape, getLast?_append, getLast?_eq_some_getLast notEmpty, Option.some_or,
        ← getLast?_eq_some_getLast notEmpty]
  have regrouped : (gaps front first others back).inner spell =
      front.text ++ ((spell first ++ othersText spell others) ++ back.text) := by
    simp [inner]
  rw [regrouped]
  refine trim_append front.isBlank_of_mem back.isBlank_of_mem notEmpty ?_ ?_
  · exact fun c member =>
      not_isBlank_of_isSpelledCharacter (spelling.head?_append first _ c member)
  · exact fun c member => not_isBlank_of_isSpelledCharacter (lastWord c member)

/-- The words of tidy outputs are found between the commas. -/
private theorem namesInPieces_inner (outputs : SpacedOutputs) (tidy : outputs.isTidy) :
    namesInPieces (((outputs.inner spell).splitOn ',').map Text.strip) =
      foundNames (outputs.words spell) := by
  have noComma := spelling.not_mem (show isSpelledCharacter ',' = false by decide)
  cases outputs with
  | single word =>
    have stripped : (spell word).strip = spell word := by
      refine trim_of_ends ?_ ?_
      · exact fun c member => spelling.not_isBlank word c (mem_of_head? member)
      · exact fun c member => spelling.not_isBlank word c (mem_of_getLast? member)
    rw [inner, splitOn_of_not_mem (noComma word), map_singleton, stripped]
    exact namesInPieces_singleton (not_isIndent_spell spelling word)
  | commas cells =>
    rw [inner, words]
    rcases cells with _ | ⟨cell, _ | ⟨next, cells⟩⟩
    · rfl
    · rw [map_strip_splitOn_cellsText spelling (cons_ne_nil cell []), map_singleton]
      cases cell with
      | nothing gap => rfl
      | item front word back =>
        exact namesInPieces_singleton (not_isIndent_spell spelling word)
    · rw [map_strip_splitOn_cellsText spelling (cons_ne_nil cell _)]
      simp [namesInPieces, foundNames]
  | gaps front first others back =>
    have noCommas : ',' ∉ (gaps front first others back).inner spell := by
      have inOthers := forall_mem_othersText (@spelling.ne _ _ ',' (by decide))
        (fun c indent => ne_of_test indent (by decide)) others
      simp [inner, front.not_mem, back.not_mem, noComma first, forall_mem_ne'.mp inOthers,
        show isIndent ',' = false by decide]
    rw [splitOn_of_not_mem noCommas, map_singleton,
      strip_inner_gaps spelling front first others back]
    cases others with
    | nil =>
      rw [othersText, flatMap_nil, append_nil]
      exact namesInPieces_singleton (not_isIndent_spell spelling first)
    | cons other others =>
      have single : ∀ each ∈ other :: others, each.1.text.length = 1 := by
        simpa [isTidy] using tidy
      obtain ⟨sign, isSign⟩ := length_eq_one_iff.mp (single other mem_cons_self)
      have indent := other.1.isIndent_of_mem sign (by simp [isSign])
      have separated : (spell first ++ othersText spell (other :: others)).any isIndent := by
        rw [any_eq_true]
        exact ⟨sign, by simp [othersText, isSign], indent⟩
      have notEmpty : spell first ++ othersText spell (other :: others) ≠ [] :=
        append_ne_nil_of_left_ne_nil (spelling.ne_nil first) _
      rw [namesInPieces, if_neg notEmpty, if_pos separated,
        flatMap_splitOn_othersText spelling first single]
      simp [foundNames, words]

theorem outputNames_text_append (outputs : SpacedOutputs) (tidy : outputs.isTidy) (before : Gap)
    (closing : outputs.isBracketed → '\t' ∉ before.text) :
    outputNames (outputs.text spell ++ before.text) = foundNames (outputs.words spell) := by
  have blankOfDropped : ∀ c ∈ outputs.inner spell, (c == '[' || c == ' ' || c == ']') →
      isBlank c := by
    intro c member dropped
    have notBracket : ∀ sign, isSpelledCharacter sign = false → isIndent sign = false →
        ',' ≠ sign → c ≠ sign := fun sign notSpelled notIndent notComma =>
      forall_mem_inner (spelling.ne notSpelled) (fun c indent => ne_of_test indent notIndent)
        notComma outputs c member
    simp only [Bool.or_eq_true, beq_iff_eq, or_assoc] at dropped
    rcases dropped with rfl | rfl | rfl
    · exact absurd rfl (notBracket '[' (by decide) (by decide) (by decide))
    · decide
    · exact absurd rfl (notBracket ']' (by decide) (by decide) (by decide))
  rw [outputNames_eq, ← outputs.namesInPieces_inner spelling tidy, text]
  congr 1
  split
  · -- The brackets and the gap are taken off, for the gap has blanks only.
    rename_i bracketed
    have droppedBack : ∀ c ∈ ']' :: before.text, (c == '[' || c == ' ' || c == ']') := by
      refine forall_mem_cons.mpr ⟨by decide, fun c member => ?_⟩
      have isSign : c = ' ' ∨ c = '\t' := by simpa [isIndent] using before.isIndent_of_mem c member
      have isBlankSign := isSign.resolve_right fun isTab => closing bracketed (isTab ▸ member)
      simp [isBlankSign]
    have regrouped : '[' :: (outputs.inner spell ++ [']']) ++ before.text =
        ['['] ++ (outputs.inner spell ++ (']' :: before.text)) := by
      simp
    rw [regrouped, trim_append_of_dropped (by simp) droppedBack,
      map_strip_splitOn_trim (by decide) blankOfDropped]
  · have droppedAny : ∀ c ∈ outputs.inner spell ++ before.text,
        (c == '[' || c == ' ' || c == ']') → isBlank c := by
      intro c member dropped
      rcases mem_append.mp member with inside | behind
      · exact blankOfDropped c inside dropped
      · exact before.isBlank_of_mem c behind
    rw [map_strip_splitOn_trim (by decide) droppedAny]
    exact @Text.map_strip_splitOn_append ',' _ [] _ (by decide) (by simp) before.isBlank_of_mem

end SpacedOutputs

end MatlabDocs
