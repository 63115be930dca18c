import MatlabDocs.Proofs.Text.Pieces
import MatlabDocs.Token.Lexer

/-!
# Plain code

Code is read with plain line ends, without a byte-order mark, and without line feeds around
it but for a final one.
-/

namespace MatlabDocs

open List Text

def withoutMark (code : Text) : Text :=
  (Text.afterStart? [Char.ofNat 0xFEFF] code).getD code

theorem withoutMark_cons (c : Char) (rest : Text) :
    withoutMark (c :: rest) = if c = Char.ofNat 0xFEFF then rest else c :: rest := by
  by_cases mark : c = Char.ofNat 0xFEFF
  · simp [mark, withoutMark, afterStart?]
  · have noMark : ¬ Char.ofNat 0xFEFF = c := fun same => mark same.symm
    simp [mark, noMark, withoutMark, afterStart?]

theorem Text.replace_cons_of_not_prefix {old replacement rest : Text} {c : Char}
    (different : old.isPrefixOf (c :: rest) = false) :
    replace old replacement (c :: rest) = c :: replace old replacement rest := by
  rw [replace, replaceFrom, different]
  rfl

private theorem Text.replace_singleton_cons (old new c : Char) (rest : Text) :
    replace [old] [new] (c :: rest) = (if c = old then new else c) :: replace [old] [new] rest := by
  by_cases same : c = old
  · simp [replace, replaceFrom, same]
  · have different : ¬ old = c := fun equal => same equal.symm
    simp [replace, replaceFrom, same, different]

variable (text : Text)

/-- Line ends are made plain by two replacements, the first for the longer of them. -/
theorem unixNewlines_eq_replace :
    unixNewlines text = Text.replace "\r" "\n" (Text.replace "\r\n" "\n" text) := by
  fun_induction unixNewlines text with
  | case1 => rfl
  | case2 rest ih =>
    have both : replace "\r\n" "\n" ('\r' :: '\n' :: rest) =
        '\n' :: replace "\r\n" "\n" rest := rfl
    have single := replace_singleton_cons '\r' '\n' '\n' (replace "\r\n" "\n" rest)
    rw [both, ih]
    exact single.symm
  | case3 c rest notBoth ih =>
    have different : ("\r\n" : Text).isPrefixOf (c :: rest) = false := by
      rw [Bool.eq_false_iff]
      intro isPrefix
      obtain ⟨others, shape⟩ := isPrefixOf_iff_prefix.mp isPrefix
      obtain ⟨rfl, rfl⟩ := cons.inj shape
      exact notBoth others rfl rfl
    have single := replace_singleton_cons '\r' '\n' c (replace "\r\n" "\n" rest)
    rw [ replace_cons_of_not_prefix different, ih]
    exact single.symm

theorem unixNewlines_cons {c : Char} (notReturn : c ≠ '\r') (rest : Text) :
    unixNewlines (c :: rest) = c :: unixNewlines rest := by
  rw [unixNewlines, if_neg notReturn]
  exact fun _ same => absurd same notReturn

theorem unixNewlines_append {front : Text} (noReturn : '\r' ∉ front) (rest : Text) :
    unixNewlines (front ++ rest) = front ++ unixNewlines rest := by
  induction front with
  | nil => rfl
  | cons c front ih =>
    have notReturn : c ≠ '\r' := fun same => noReturn (by simp [same])
    rw [cons_append, unixNewlines_cons notReturn,
      ih fun member => noReturn (by simp [member]), cons_append]

theorem normalizeCode_eq (code : Text) :
    normalizeCode code = Text.trim (· == '\n')
      (Text.replace "\r" "\n" (Text.replace "\r\n" "\n" (withoutMark code))) ++ ['\n'] := by
  rw [← unixNewlines_eq_replace, normalizeCode.eq_def]
  cases code with
  | nil => rfl
  | cons c rest => rw [withoutMark_cons]

theorem return_not_mem_unixNewlines : '\r' ∉ unixNewlines text := by
  fun_induction unixNewlines text with
  | case1 => simp
  | case2 rest ih => simpa using ih
  | case3 c rest notBoth ih =>
    split
    · simpa using ih
    · rename_i notReturn
      exact not_mem_cons_of_ne_of_not_mem (fun same => notReturn same.symm) ih

/-- Code keeps its lines up to one that is not empty, and ends in a line feed. -/
theorem normalizeCode_append {first : Char} {front : Text} (noMark : first ≠ Char.ofNat 0xFEFF)
    (notLineFeed : first ≠ '\n') (noReturn : '\r' ∉ first :: front)
    (kept : ∀ c ∈ (first :: front).getLast?, (c == '\n') = false) (rest : Text) :
    normalizeCode (first :: front ++ rest) =
      first :: front ++ (Text.trimRight (· == '\n') (unixNewlines rest) ++ ['\n']) := by
  have stops : ¬ (first == '\n') = true := by simpa using notLineFeed
  rw [normalizeCode.eq_def]
  simp only [cons_append, if_neg noMark, trim]
  rw [← cons_append, unixNewlines_append noReturn, cons_append,
    dropWhile_cons_of_neg (p := (· == '\n')) stops, ← cons_append,
    trimRight_append_of_getLast? kept, append_assoc]
  rfl

theorem exists_trimRight_lineFeed :
    ∃ rest, Text.trimRight (· == '\n') ('\n' :: text) ++ ['\n'] = '\n' :: rest ∧
      (rest = [] ∨ ∃ kept back, text = kept ++ back ∧ rest = kept ++ ['\n']) := by
  obtain ⟨back, split, lineFeeds⟩ := exists_trimRight_append (· == '\n') text
  by_cases empty : trimRight (· == '\n') text = []
  · rw [empty, nil_append] at split
    refine ⟨[], ?_, .inl rfl⟩
    have dropped : ∀ c ∈ '\n' :: text, (c == '\n') = true := by
      rw [split]
      exact forall_mem_cons.mpr ⟨rfl, lineFeeds⟩
    rw [← nil_append ('\n' :: text), trimRight_append dropped]
    rfl
  · refine ⟨trimRight (· == '\n') text ++ ['\n'], ?_, .inr ⟨_, back, split, rfl⟩⟩
    have kept := @Text.trimRight_append_of_ne_nil ['\n'] (· == '\n') text empty
    rw [singleton_append] at kept
    rw [kept]
    rfl

end MatlabDocs
