import MatlabDocs.Proofs.Source.KeptParts

/-!
# Where comment lines end

Comment lines end where something else than a comment comes next.  Neither the preparation of the
code nor the reading of its line ends can put a comment there: the blanks and the first sign behind
them stay what they are, unless the sign is the dot of an ellipsis.
-/

namespace MatlabDocs

open List

/-- The first sign behind the blanks is neither a comment sign nor the dot of an ellipsis. -/
def EndsComments (text : Text) : Prop :=
  ∀ c ∈ (text.dropWhile isIndent).head?, c ≠ '%' ∧ c ≠ '.'

section

variable {c : Char} {front rest : Text}

theorem endsComments_cons_iff (indent : isIndent c) :
    EndsComments (c :: rest) ↔ EndsComments rest := by
  rw [EndsComments, EndsComments, dropWhile_cons_of_pos indent]

theorem endsComments_cons (notIndent : ¬ isIndent c) (notComment : c ≠ '%') (notDot : c ≠ '.') :
    EndsComments (c :: rest) := by
  rw [EndsComments, dropWhile_cons_of_neg notIndent]
  intro first isFirst
  obtain rfl : c = first := by simpa using isFirst
  exact ⟨notComment, notDot⟩

theorem EndsComments.head (ends : EndsComments (c :: rest)) (notIndent : ¬ isIndent c) :
    c ≠ '%' ∧ c ≠ '.' := by
  apply ends
  rw [dropWhile_cons_of_neg notIndent]
  rfl

theorem endsComments_nil : EndsComments [] := by
  simp [EndsComments]

theorem EndsComments.append_lineFeed (ends : EndsComments (front ++ rest)) :
    EndsComments (front ++ ['\n']) := by
  induction front with
  | nil => exact endsComments_cons (by decide) (by decide) (by decide)
  | cons c front ih =>
    by_cases indent : isIndent c
    · apply (endsComments_cons_iff indent).mpr
      exact ih ((endsComments_cons_iff indent).mp ends)
    · obtain ⟨notComment, notDot⟩ := EndsComments.head ends indent
      exact endsComments_cons indent notComment notDot

end

section

theorem exists_joinContinuedLines_cons {c : Char} (notDot : c ≠ '.') (rest : Text) :
    ∃ more, joinContinuedLines (c :: rest) = c :: more := by
  by_cases sign : isContinuationSign c
  · have barrier : isBarrier c := by
      simp only [isContinuationSign, Bool.or_eq_true, beq_iff_eq, notDot, false_or] at sign
      simp only [isBarrier, Bool.or_eq_true, beq_iff_eq]
      rcases sign with (quote | double) | comment
      · exact .inl (.inr quote)
      · exact .inr double
      · exact .inl (.inl comment)
    have notLineFeed : c ≠ '\n' := by
      rintro rfl
      exact absurd barrier (by decide)
    obtain ⟨piece, pieces, split⟩ := Text.exists_splitOn_eq_cons '\n' rest
    obtain ⟨kept, isKept⟩ := exists_dropEllipsisInQuotes_cons barrier piece
    have whole : beforeContinuation? (c :: kept) = none :=
      beforeContinuation?_barrier barrier (forall_mem_nil _) (by decide) kept
    have joined : joinContinuedLines (c :: rest) =
        joinContinued ((c :: kept) :: pieces.map dropEllipsisInQuotes) := by
      rw [joinContinuedLines, Text.splitOn, if_neg notLineFeed, split, map_cons, isKept]
    exact ⟨_, joined.trans (joinContinued_append_cons whole [] _)⟩
  · have plain : ∀ other ∈ [c], isContinuationSign other = false := by
      simpa using sign
    exact ⟨_, joinContinuedLines_append plain rest⟩

theorem EndsComments.joinContinuedLines {text : Text} (ends : EndsComments text) :
    EndsComments (joinContinuedLines text) := by
  have indent : ∀ c ∈ text.takeWhile isIndent, isIndent c :=
    all_eq_true.mp all_takeWhile
  have plain : ∀ c ∈ text.takeWhile isIndent, isContinuationSign c = false :=
    fun c member => isContinuationSign_eq_false (indent c member) (by decide)
  rw [← @takeWhile_append_dropWhile _ isIndent text, joinContinuedLines_append plain]
  rw [EndsComments, dropWhile_append_of_pos indent, ← EndsComments]
  cases behind : text.dropWhile isIndent with
  | nil => exact endsComments_nil
  | cons c rest =>
    have notIndent : ¬ isIndent c := by
      have stops := head?_dropWhile_not isIndent text
      rw [behind] at stops
      simpa using stops
    obtain ⟨notComment, notDot⟩ := ends c (by rw [behind]; rfl)
    obtain ⟨more, joined⟩ := exists_joinContinuedLines_cons notDot rest
    rw [joined]
    exact endsComments_cons notIndent notComment notDot

theorem skipOne_suffix (expected : Char) (text : Text) : skipOne expected text <:+ text := by
  cases text with
  | nil => exact suffix_rfl
  | cons c text =>
    rw [skipOne]
    split
    · exact suffix_cons c text
    · exact suffix_rfl

variable {text : Text}

theorem Text.eq_append_of_afterStart? {start after : Text}
    (started : afterStart? start text = some after) : text = start ++ after := by
  rw [afterStart?] at started
  split at started
  · rename_i starts
    obtain ⟨rest, shape⟩ := List.isPrefixOf_iff_prefix.mp starts
    rw [← shape, drop_left] at started
    rw [← shape, Option.some.inj started]
  · cases started

variable {afterEquals : Text} {signature : AssignedSignature}

theorem behindEquals?_spec (found : behindEquals? text = some afterEquals) :
    ∃ afterKeyword, text.dropWhile isIndent = ("function" : Text) ++ afterKeyword ∧
      afterEquals <:+ afterKeyword := by
  rw [behindEquals?] at found
  obtain ⟨afterKeyword, started, found⟩ := Option.bind_eq_some_iff.mp found
  refine ⟨afterKeyword, Text.eq_append_of_afterStart? started, ?_⟩
  have shape := Text.eq_append_of_afterStart? found
  have fromEquals : ['='] ++ afterEquals <:+ afterKeyword := by
    rw [← shape]
    exact (dropWhile_suffix _).trans ((skipOne_suffix _ _).trans
      ((dropWhile_suffix _).trans ((skipOne_suffix _ _).trans (dropWhile_suffix _))))
  exact (suffix_append ['='] afterEquals).trans fromEquals

private theorem namedSignature?_spec (found : namedSignature? afterEquals = some signature) :
    signature.rest <:+ afterEquals ∧ signature.name ≠ [] ∧ ∀ c ∈ signature.name, isWord c := by
  rw [namedSignature?] at found
  split at found
  · cases found
  · rename_i notEmpty
    obtain rfl := Option.some.inj found
    refine ⟨?_, notEmpty, all_eq_true.mp all_takeWhile⟩
    exact (skipOne_suffix _ _).trans ((dropWhile_suffix _).trans
      ((skipOne_suffix _ _).trans ((dropWhile_suffix _).trans
        ((dropWhile_suffix _).trans (dropWhile_suffix _)))))

theorem assignedSignature?_spec (found : assignedSignature? text = some signature) :
    (∃ body, text = text.takeWhile isIndent ++ ("function" ++ body) ++ signature.rest) ∧
      signature.name ≠ [] ∧ ∀ c ∈ signature.name, isWord c := by
  rw [assignedSignature?_eq_bind] at found
  obtain ⟨afterEquals, isBehind, named⟩ := Option.bind_eq_some_iff.mp found
  obtain ⟨afterKeyword, keyword, behindKeyword⟩ := behindEquals?_spec isBehind
  obtain ⟨isRest, isName⟩ := namedSignature?_spec named
  obtain ⟨body, isAfter⟩ := isRest.trans behindKeyword
  refine ⟨⟨body, ?_⟩, isName⟩
  rw [append_assoc, append_assoc, isAfter, ← keyword, takeWhile_append_dropWhile]

theorem Text.replace_append_of_not_isWord {name front : Text} (notEmpty : name ≠ [])
    (word : ∀ c ∈ name, isWord c) (plain : ∀ c ∈ front, isWord c = false)
    (replacement rest : Text) :
    replace name replacement (front ++ rest) = front ++ replace name replacement rest := by
  induction front with
  | nil => rfl
  | cons c front ih =>
    obtain ⟨notWord, others⟩ := forall_mem_cons.mp plain
    obtain ⟨first, more, rfl⟩ := exists_cons_of_ne_nil notEmpty
    have different : (first == c) = false := by
      simpa using ne_of_test (word first mem_cons_self) notWord
    have notPrefix : (first :: more).isPrefixOf (c :: (front ++ rest)) = false := by
      rw [List.isPrefixOf, different, Bool.false_and]
    rw [cons_append, replace_cons_of_not_prefix notPrefix, ih others, cons_append]

end

theorem EndsComments.unixNewlines {text : Text} (ends : EndsComments text) :
    EndsComments (unixNewlines text) := by
  fun_induction MatlabDocs.unixNewlines text with
  | case1 => exact ends
  | case2 rest ih => exact endsComments_cons (by decide) (by decide) (by decide)
  | case3 c rest notBoth ih =>
    by_cases indent : isIndent c
    · have notReturn : c ≠ '\r' := ne_of_test indent (by decide)
      rw [if_neg notReturn]
      apply (endsComments_cons_iff indent).mpr
      exact ih ((endsComments_cons_iff indent).mp ends)
    · obtain ⟨notComment, notDot⟩ := ends.head indent
      split
      · exact endsComments_cons (by decide) (by decide) (by decide)
      · exact endsComments_cons indent notComment notDot

/-- The line below comment lines still ends them when the code is made plain. -/
theorem EndsComments.exists_trimRight {text : Text} (ends : EndsComments text) :
    ∃ rest, Text.trimRight (· == '\n') ('\n' :: text) ++ ['\n'] = '\n' :: rest ∧
      EndsComments rest := by
  obtain ⟨rest, trimmed, nothing | ⟨kept, back, split, isRest⟩⟩ := exists_trimRight_lineFeed text
  · exact ⟨rest, trimmed, nothing ▸ endsComments_nil⟩
  · rw [split] at ends
    exact ⟨rest, trimmed, isRest ▸ ends.append_lineFeed⟩

end MatlabDocs
