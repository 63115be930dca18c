import MatlabDocs.Proofs.Function.SpacedLists

/-!
# Lines with marked words

Parentheses that are put behind the occurrences of a name in a line go into its words, and each word
is marked by itself.  The gaps and the signs between the words stay as they are.
-/

namespace MatlabDocs

open List

section

variable {test : Char → Bool} {front rest : Text}

theorem head?_append_eq_false (fails : ∀ c ∈ front, test c = false)
    (ends : ∀ c ∈ rest.head?, test c = false) : ∀ c ∈ (front ++ rest).head?, test c = false :=
  head?_append_of_head? (fun c member => fails c (mem_of_head? member)) ends

theorem head?_append_of_ne_nil (notEmpty : front ≠ []) (fails : ∀ c ∈ front, test c = false) :
    ∀ c ∈ (front ++ rest).head?, test c = false := by
  obtain ⟨c, front, rfl⟩ := exists_cons_of_ne_nil notEmpty
  simpa using fails c mem_cons_self

end

section

variable (mark : Option Mark) {rest : Text}

theorem putMark_nil : putMark mark [] = [] := by
  cases mark with
  | none => rfl
  | some mark => rfl

theorem putMark_plain_append {plain : Text} (isPlain : ∀ c ∈ plain, isWord c = false)
    (rest : Text) : putMark mark (plain ++ rest) = plain ++ putMark mark rest := by
  cases mark with
  | none => rfl
  | some mark =>
    exact Text.replace_append_of_not_isWord mark.name_ne_nil mark.isWord_of_mem isPlain _ rest

theorem putMark_append (text : Text) (ends : EndsWord rest) :
    putMark mark (text ++ rest) = putMark mark text ++ putMark mark rest := by
  cases rest with
  | nil => rw [putMark_nil, append_nil, append_nil]
  | cons c rest =>
    have notWord : isWord c = false := ends c rfl
    have below : putMark mark (c :: rest) = c :: putMark mark rest :=
      @putMark_plain_append mark [c] (by simpa using notWord) rest
    cases mark with
    | none => rfl
    | some mark =>
      have absent : c ∉ mark.name :=
        fun member => ne_of_test (mark.isWord_of_mem c member) notWord rfl
      rw [below]
      exact Text.replace_append_stop _ mark.name_ne_nil absent text rest

theorem putBehind_putMark (mark : Mark) (text : Text) :
    PutBehind mark.name text (putMark (some mark) text) :=
  Text.putBehind_replace mark.name_ne_nil text

theorem head?_putMark (text : Text) : (putMark mark text).head? = text.head? := by
  cases mark with
  | none => rfl
  | some mark =>
    rw [head?_eq_find?, head?_eq_find?]
    exact (putBehind_putMark mark text).find?_eq (fun _ _ => rfl) mark.name_ne_nil
      mark.isWord_of_mem

private theorem PutBehind.mem_or {name text shown : Text} (put : PutBehind name text shown) :
    ∀ c ∈ shown, c ∈ text ∨ c = '(' ∨ c = ')' := by
  induction put with
  | nil => simp
  | copied c _ ih =>
    refine forall_mem_cons.mpr ⟨.inl mem_cons_self, fun d member => ?_⟩
    exact (ih d member).imp_left (mem_cons_of_mem c)
  | marked _ ih =>
    refine forall_mem_append.mpr ⟨fun c member => .inl (mem_append_left _ member), ?_⟩
    refine forall_mem_append.mpr ⟨fun c member => .inr ?_, fun c member => ?_⟩
    · simpa using member
    · exact (ih c member).imp_left (mem_append_right _)

theorem isSpelling_spelled : IsSpelling (spelled mark) where
  ne_nil := by
    intro word empty
    have sameHead := head?_putMark mark word.text
    rw [show putMark mark word.text = [] from empty, head?_nil, eq_comm,
      head?_eq_none_iff] at sameHead
    exact word.text_ne_nil sameHead
  isSpelled := by
    intro word c member
    cases mark with
    | none => exact isSpelling_identifier.isSpelled word c member
    | some mark =>
      rcases (putBehind_putMark mark word.text).mem_or c member with inWord | rfl | rfl
      · exact isSpelling_identifier.isSpelled word c inWord
      · decide
      · decide

theorem Cell.putMark_text_append (cell : Cell Identifier) (ends : EndsWord rest) :
    putMark mark (cell.text Identifier.text ++ rest) =
      cell.text (spelled mark) ++ putMark mark rest := by
  cases cell with
  | nothing gap => exact putMark_plain_append mark gap.not_isWord_of_mem rest
  | item front word back =>
    have endsBack : EndsWord (back.text ++ rest) :=
      head?_append_eq_false back.not_isWord_of_mem ends
    simp only [text, append_assoc]
    rw [putMark_plain_append mark front.not_isWord_of_mem, putMark_append mark _ endsBack,
      putMark_plain_append mark back.not_isWord_of_mem]
    rfl

theorem putMark_cellsText_append (cells : List (Cell Identifier)) (ends : EndsWord rest) :
    putMark mark (cellsText Identifier.text cells ++ rest) =
      cellsText (spelled mark) cells ++ putMark mark rest := by
  match cells with
  | [] => rfl
  | [cell] =>
    rw [cellsText_singleton, cellsText_singleton]
    exact cell.putMark_text_append mark ends
  | cell :: next :: cells =>
    have comma : ∀ text, putMark mark (',' :: text) = ',' :: putMark mark text :=
      @putMark_plain_append mark [','] (by simpa using (by decide : isWord ',' = false))
    rw [cellsText_cons_cons, append_assoc, cons_append,
      cell.putMark_text_append mark (by simpa using (by decide : isWord ',' = false)), comma,
      putMark_cellsText_append (next :: cells) ends, cellsText_cons_cons, append_assoc,
      cons_append]

namespace SpacedOutputs

theorem head?_othersText_append (others : List (Separator × Identifier)) (ends : EndsWord rest) :
    EndsWord (othersText Identifier.text others ++ rest) := by
  cases others with
  | nil => exact ends
  | cons other others =>
    rw [othersText, flatMap_cons, append_assoc, append_assoc]
    exact head?_append_of_ne_nil other.1.notEmpty other.1.not_isWord_of_mem

theorem putMark_othersText_append (others : List (Separator × Identifier)) (ends : EndsWord rest) :
    putMark mark (othersText Identifier.text others ++ rest) =
      othersText (spelled mark) others ++ putMark mark rest := by
  induction others with
  | nil => rfl
  | cons other others ih =>
    have endsOthers := head?_othersText_append others ends
    simp only [othersText, flatMap_cons, append_assoc] at ih endsOthers ⊢
    rw [putMark_plain_append mark other.1.not_isWord_of_mem, putMark_append mark _ endsOthers,
      ih]
    rfl

private theorem putMark_inner_append (outputs : SpacedOutputs) (ends : EndsWord rest) :
    putMark mark (outputs.inner Identifier.text ++ rest) =
      outputs.inner (spelled mark) ++ putMark mark rest := by
  cases outputs with
  | single word => exact putMark_append mark word.text ends
  | commas cells => exact putMark_cellsText_append mark cells ends
  | gaps front first others back =>
    have endsBack := head?_append_eq_false back.not_isWord_of_mem ends
    simp only [inner, append_assoc]
    rw [putMark_plain_append mark front.not_isWord_of_mem,
      putMark_append mark _ (head?_othersText_append others endsBack),
      putMark_othersText_append mark others endsBack,
      putMark_plain_append mark back.not_isWord_of_mem]
    rfl

theorem putMark_text_append (outputs : SpacedOutputs) (ends : EndsWord rest) :
    putMark mark (outputs.text Identifier.text ++ rest) =
      outputs.text (spelled mark) ++ putMark mark rest := by
  have opening : isWord '[' = false := by decide
  have closing : isWord ']' = false := by decide
  rw [text, text]
  split
  · rw [cons_append, append_assoc, ← singleton_append,
      putMark_plain_append mark (by simpa using opening),
      outputs.putMark_inner_append mark (by simpa using closing),
      putMark_plain_append mark (by simpa using closing)]
    simp
  · exact outputs.putMark_inner_append mark ends

end SpacedOutputs

theorem Assignment.putMark_text_append (assignment : Assignment) (rest : Text) :
    putMark mark (assignment.text Identifier.text ++ rest) =
      assignment.text (spelled mark) ++ putMark mark rest := by
  have plain : ∀ c ∈ assignment.before.text ++ '=' :: assignment.after.text, isWord c = false :=
    forall_mem_append.mpr ⟨assignment.before.not_isWord_of_mem, forall_mem_cons.mpr
      ⟨by decide, assignment.after.not_isWord_of_mem⟩⟩
  have notEmpty : assignment.before.text ++ '=' :: assignment.after.text ≠ [] :=
    append_ne_nil_of_right_ne_nil _ (cons_ne_nil _ _)
  rw [text, text, append_assoc,
    assignment.outputs.putMark_text_append mark (head?_append_of_ne_nil notEmpty plain),
    putMark_plain_append mark plain, ← append_assoc]

namespace SpacedSignature

variable (signature : SpacedSignature)

def front (mark : Option Mark) : Text :=
  putMark mark "function" ++ (signature.keywordGap.text ++ signature.assignmentText mark)

theorem written_eq : signature.written mark =
    signature.front mark ++ (spelled mark signature.name ++
      (signature.callText ++ signature.ending.text)) := by
  simp [written, front]

theorem assignmentText_eq_nil (unassigned : signature.assignment = none) :
    signature.assignmentText mark = [] := by
  rw [assignmentText, unassigned]

theorem assignmentText_eq {found : Assignment} (isFound : signature.assignment = some found) :
    signature.assignmentText mark = found.text (spelled mark) := by
  rw [assignmentText, isFound]

theorem callText_eq_nil (uncalled : signature.call = none) : signature.callText = [] := by
  rw [callText, uncalled]

theorem callText_eq {found : SpacedCall} (isFound : signature.call = some found) :
    signature.callText = found.text := by
  rw [callText, isFound]

private theorem head?_keywordGap_append (rest : Text) :
    ∀ c ∈ (signature.keywordGap.text ++ (signature.assignmentText none ++ rest)).head?,
      isWord c = false := by
  by_cases noGap : signature.keywordGap.text = []
  · obtain ⟨found, isFound, bracketed⟩ := signature.spaced noGap
    rw [noGap, assignmentText_eq none signature isFound, Assignment.text, SpacedOutputs.text,
      if_pos bracketed]
    simpa using (by decide : isWord '[' = false)
  · exact head?_append_of_ne_nil noGap signature.keywordGap.not_isWord_of_mem

theorem putMark_front_append (ends : EndsWord rest) :
    putMark mark (signature.front none ++ (signature.name.text ++ rest)) =
      signature.front mark ++ (spelled mark signature.name ++ putMark mark rest) := by
  have assigned : ∀ behind : Text, putMark mark (signature.assignmentText none ++ behind) =
      signature.assignmentText mark ++ putMark mark behind := by
    intro behind
    rw [assignmentText, assignmentText]
    cases signature.assignment with
    | none => rfl
    | some found => exact found.putMark_text_append mark behind
  simp only [front, append_assoc]
  rw [show putMark none ("function" : Text) = ("function" : Text) from rfl,
    putMark_append mark _ (signature.head?_keywordGap_append _),
    putMark_plain_append mark signature.keywordGap.not_isWord_of_mem, assigned,
    putMark_append mark _ ends]
  rfl

end SpacedSignature

end

end MatlabDocs
