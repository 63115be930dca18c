import MatlabDocs.Proofs.Text.Pieces
import MatlabDocs.Text.Word

/-!
# Identifiers

An identifier is a letter or an underscore, followed by letters, digits and underscores of
the basic Latin block.  So none of the signs that part the names of a signature is in it.
-/

namespace MatlabDocs

def isIdentifier : Text → Bool
  | [] => false
  | c :: rest => (c.isAlpha || c == '_') && rest.all isAsciiWord

structure Identifier where
  text : Text
  wellFormed : isIdentifier text
  deriving DecidableEq, Repr

variable {c : Char}

theorem isAsciiWord_toNat (word : isAsciiWord c) :
    (48 ≤ c.toNat ∧ c.toNat ≤ 57) ∨ (65 ≤ c.toNat ∧ c.toNat ≤ 90) ∨ c.toNat = 95 ∨
      (97 ≤ c.toNat ∧ c.toNat ≤ 122) := by
  have classes : (((c.isUpper || c.isLower) || c.isDigit) || c == '_') = true := word
  rw [Bool.or_eq_true, Bool.or_eq_true, Bool.or_eq_true] at classes
  rcases classes with ((upper | lower) | digit) | underscore
  · have range : 'A'.val ≤ c.val ∧ c.val ≤ 'Z'.val := of_decide_eq_true upper
    exact .inr (.inl ⟨UInt32.le_iff_toNat_le.mp range.1, UInt32.le_iff_toNat_le.mp range.2⟩)
  · have range : 'a'.val ≤ c.val ∧ c.val ≤ 'z'.val := by
      have both : (decide ('a'.val ≤ c.val) && decide (c.val ≤ 'z'.val)) = true := lower
      simpa using both
    exact .inr (.inr (.inr ⟨UInt32.le_iff_toNat_le.mp range.1, UInt32.le_iff_toNat_le.mp range.2⟩))
  · have range : '0'.val ≤ c.val ∧ c.val ≤ '9'.val := by
      have both : (decide ('0'.val ≤ c.val) && decide (c.val ≤ '9'.val)) = true := digit
      simpa using both
    exact .inl ⟨UInt32.le_iff_toNat_le.mp range.1, UInt32.le_iff_toNat_le.mp range.2⟩
  · obtain rfl := eq_of_beq underscore
    exact .inr (.inr (.inl rfl))

theorem not_isBlank_of_isAsciiWord (word : isAsciiWord c) : isBlank c = false := by
  have bounds := isAsciiWord_toNat word
  rw [Bool.eq_false_iff]
  intro blank
  simp only [isBlank, inRanges, blankRanges, List.any_cons, List.any_nil, Bool.or_false,
    Bool.or_eq_true, Bool.and_eq_true, decide_eq_true_eq] at blank
  omega

theorem isWord_of_isAsciiWord (word : isAsciiWord c) : isWord c := by
  simp [isWord, word]

/-- A word ends in front of the text. -/
@[simp] abbrev EndsWord (rest : Text) : Prop :=
  ∀ c ∈ rest.head?, isWord c = false

namespace Identifier

variable (identifier : Identifier)

theorem text_ne_nil : identifier.text ≠ [] := by
  intro empty
  have wellFormed := identifier.wellFormed
  rw [empty] at wellFormed
  exact Bool.false_ne_true wellFormed

theorem isAsciiWord_of_mem : ∀ c ∈ identifier.text, isAsciiWord c := by
  intro c member
  have wellFormed := identifier.wellFormed
  cases text : identifier.text with
  | nil => simp [text] at member
  | cons first rest =>
    rw [text, isIdentifier, Bool.and_eq_true] at wellFormed
    rw [text] at member
    rcases List.mem_cons.mp member with rfl | later
    · have letter := wellFormed.1
      simp only [Bool.or_eq_true] at letter
      rcases letter with alpha | underscore
      · simp [isAsciiWord, Char.isAlphanum, alpha]
      · simp [isAsciiWord, underscore]
    · exact List.all_eq_true.mp wellFormed.2 c later

theorem isWord_of_mem : ∀ c ∈ identifier.text, isWord c :=
  fun c member => isWord_of_isAsciiWord (identifier.isAsciiWord_of_mem c member)

theorem not_mem_of_not_isAsciiWord {sign : Char} (notWord : isAsciiWord sign = false) :
    sign ∉ identifier.text :=
  fun member => ne_of_test (identifier.isAsciiWord_of_mem sign member) notWord rfl

theorem trim_text {drop : Char → Bool} (signs : ∀ c, isAsciiWord c → drop c = false) :
    identifier.text.trim drop = identifier.text :=
  Text.trim_of_ends
    (fun c member => signs c (identifier.isAsciiWord_of_mem c (List.mem_of_head? member)))
    fun c member => signs c (identifier.isAsciiWord_of_mem c (List.mem_of_getLast? member))

theorem strip_text : identifier.text.strip = identifier.text :=
  identifier.trim_text fun _ => not_isBlank_of_isAsciiWord

end Identifier

def listText (names : List Identifier) : Text :=
  Text.joinWith ", " (names.map Identifier.text)

theorem map_strip_splitOn_listText {names : List Identifier} (notEmpty : names ≠ []) :
    ((listText names).splitOn ',').map Text.strip = names.map Identifier.text := by
  obtain ⟨first, others, rfl⟩ := List.exists_cons_of_ne_nil notEmpty
  refine Text.map_strip_splitOn_joinWith ?_ ?_
  · intro name member
    obtain ⟨identifier, _, rfl⟩ := List.mem_map.mp
      (show name ∈ (first :: others).map Identifier.text from member)
    exact identifier.not_mem_of_not_isAsciiWord (by decide)
  · intro name member
    obtain ⟨identifier, _, rfl⟩ := List.mem_map.mp
      (show name ∈ (first :: others).map Identifier.text from member)
    exact identifier.strip_text

end MatlabDocs
