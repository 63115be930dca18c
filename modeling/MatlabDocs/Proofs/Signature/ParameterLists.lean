import MatlabDocs.Proofs.Signature.BracketDepth

/-!
# Parameter lists are read back

Parameters and optional groups are written with commas between them and with brackets around
the groups.  Where a group follows a parameter, its opening bracket may also stand in front of
the comma.  However a list is written, reading it gives the parameters and groups again.

The reading cuts the text at its commas.  A piece between two commas holds at most one
parameter, and the brackets around it open and close groups in the order in which they stand.
-/

namespace MatlabDocs

open List

/-- A text without commas that has neither blanks nor brackets at its ends. -/
structure IsParameterText (text : Text) : Prop where
  stripped : text.strip = text
  noComma : ',' ∉ text
  front : ∀ c ∈ text.head?, c ≠ '[' ∧ c ≠ ']'
  back : ∀ c ∈ text.getLast?, c ≠ '[' ∧ c ≠ ']'

theorem IsParameterText.singleton {c : Char} (stripped : Text.strip [c] = [c]) (noComma : c ≠ ',')
    (noBracket : c ≠ '[' ∧ c ≠ ']') : IsParameterText [c] where
  stripped := stripped
  noComma := by simpa using noComma.symm
  front := by simpa using noBracket
  back := by simpa using noBracket

namespace Parameter

mutual

def render : Parameter → Text
  | plain text => text
  | optional group => "[" ++ Text.joinWith ", " (renderEach group) ++ "]"

def renderEach : List Parameter → List Text
  | [] => []
  | item :: items => item.render :: renderEach items

end

def renderAll (items : List Parameter) : Text :=
  Text.joinWith ", " (renderEach items)

/-- The ways to write a list of parameters and groups. -/
inductive Written : List Parameter → Text → Prop where
  | empty : Written [] ""
  | parameter (text : Text) : Written [.plain text] text
  | group {items : List Parameter} {text : Text} :
      Written items text → Written [.optional items] ("[" ++ text ++ "]")
  | comma {front back : List Parameter} {text more : Text} :
      Written front text → Written back more → front ≠ [] → back ≠ [] →
      Written (front ++ back) (text ++ ", " ++ more)
  /-- The bracket that opens a group stands in front of the comma behind a parameter. -/
  | bracketFirst {front items : List Parameter} {last text more : Text} :
      Written (front ++ [.plain last]) text → Written items more →
      Written (front ++ [.plain last, .optional items]) (text ++ "[, " ++ more ++ "]")

mutual

private theorem written_render (item : Parameter) : Written [item] item.render := by
  cases item with
  | plain text => exact .parameter text
  | optional items => exact .group (written_renderAll items)

theorem written_renderAll (items : List Parameter) : Written items (renderAll items) := by
  cases items with
  | nil => exact .empty
  | cons item items =>
    cases items with
    | nil =>
      have single : renderAll [item] = item.render := Text.joinWith_singleton _ _
      rw [single]
      exact written_render item
    | cons next items =>
      have joined : renderAll (item :: next :: items) =
          item.render ++ ", " ++ renderAll (next :: items) :=
        Text.joinWith_cons_cons _ _ _ _
      rw [joined]
      exact .comma (written_render item) (written_renderAll (next :: items))
        (cons_ne_nil _ _) (cons_ne_nil _ _)

end

/-! ### Brackets at the ends of a list -/

theorem head?_strip (text : Text) : text.strip.head? = (visible text).head? := by
  obtain ⟨front, back, split, dropped, kept, _⟩ := Text.exists_append_trim_append isBlank text
  obtain ⟨droppedFront, droppedBack⟩ := forall_mem_append.mp dropped
  have same : visible text = visible text.strip := by
    conv_lhs => rw [split]
    rw [visible_append, visible_append, visible_eq_nil_iff.mpr droppedFront,
      visible_eq_nil_iff.mpr droppedBack, nil_append, append_nil]
    rfl
  rw [same]
  change ∀ c ∈ text.strip.head?, isBlank c = false at kept
  cases shape : text.strip with
  | nil => rfl
  | cons c rest =>
    rw [shape] at kept
    simp [visible, kept c rfl]

theorem getLast?_strip (text : Text) : text.strip.getLast? = (visible text).getLast? := by
  rw [← head?_reverse, Text.reverse_strip, head?_strip, visible_reverse, head?_reverse]

theorem visible_ne_nil {text : Text} (stripped : text.strip = text) (notEmpty : text ≠ []) :
    visible text ≠ [] := by
  intro nothing
  have noHead := head?_strip text
  rw [stripped, nothing] at noHead
  exact notEmpty (head?_eq_none_iff.mp noHead)

theorem piecesOf_comma (text more : Text) :
    piecesOf (text ++ ", " ++ more) = piecesOf text ++ piecesOf more := by
  have cut : ∀ text, piecesOf text = ((text.splitOn ',').map Text.strip).map Piece.ofText := by
    intro text
    rw [map_map]
    refine map_congr_left fun written _ => ?_
    rw [Function.comp, Piece.ofText, Piece.ofText, Text.strip_strip]
  have blank := @Text.map_strip_splitOn_cons ',' ' ' (by decide) (by decide) more
  rw [append_assoc, cut text, cut more, ← blank, ← map_append, ← map_append,
    ← Text.splitOn_append_separator, cut]
  rfl

namespace Groups

variable (count : Nat) (groups : Groups) (text more : Text)

def append (items : List Parameter) : Groups :=
  { groups with inner := groups.inner ++ items }

theorem closeGroups_succ :
    closeGroups (count + 1) groups = (closeGroups count groups).bind closeGroup := by
  induction count generalizing groups with
  | zero => simp [closeGroups]
  | succ count ih =>
    rw [closeGroups]
    cases closed : groups.closeGroup with
    | none => simp [closeGroups, closed]
    | some next => rw [Option.bind_some, ih, closeGroups, closed, Option.bind_some]

theorem openGroups_succ : openGroups (count + 1) groups = (openGroups count groups).openGroup := by
  induction count generalizing groups with
  | zero => rfl
  | succ count ih => rw [openGroups, ih, openGroups]

/-- A bracket behind a piece closes one more group. -/
theorem addPiece_closing (written : Text) :
    groups.addPiece (.ofText (written ++ "]")) =
      (groups.addPiece (.ofText written)).bind closeGroup := by
  have stands := Piece.stands_ofText written
  generalize Piece.ofText written = piece at stands ⊢
  obtain ⟨openedCount, closedCount, text, openedAfterCount, closedAfterCount⟩ := piece
  obtain ⟨opened, closed, openedAfter, closedAfter, isWritten, countOpened, countClosed,
    countOpenedAfter, countClosedAfter, stripped, noOpening, noClosing, ends⟩ := stands
  dsimp only at isWritten countOpenedAfter countClosedAfter
  have bracket : visible "]" = [']'] := rfl
  cases shape : visible (text ++ openedAfter ++ closedAfter) with
  | nil =>
    simp only [visible_append, append_eq_nil_iff] at shape
    obtain ⟨⟨noText, noneOpened⟩, noneClosed⟩ := shape
    obtain rfl : text = [] := by
      by_contra notEmpty
      exact visible_ne_nil stripped notEmpty noText
    obtain rfl : openedAfterCount = 0 := by simpa [noneOpened] using countOpenedAfter
    obtain rfl : closedAfterCount = 0 := by simpa [noneClosed] using countClosedAfter
    have longer : Piece.Stands ⟨openedCount, closedCount + 1, [], 0, 0⟩ (written ++ "]") := by
      refine ⟨opened, closed ++ (openedAfter ++ closedAfter ++ "]"), [], [], by simp [isWritten],
        countOpened, ?_, rfl, rfl, rfl, ?_, nofun, nofun, nofun⟩
      · simp only [visible_append, noneOpened, noneClosed, countClosed, bracket, replicate_succ']
        rfl
      · simp only [head?_strip, visible_append, noneOpened, noneClosed, countClosed, bracket]
        cases closedCount <;> simp [replicate_succ, visible]
    rw [← Piece.stands_iff.mp longer]
    simpa [addPiece_eq, addText, openGroups, closeGroups] using
      closeGroups_succ closedCount (openGroups openedCount groups)
  | cons c rest =>
    have longer : Piece.Stands
        ⟨openedCount, closedCount, text, openedAfterCount, closedAfterCount + 1⟩
        (written ++ "]") := by
      refine ⟨opened, closed, openedAfter, closedAfter ++ "]", by simp [isWritten], countOpened,
        countClosed, countOpenedAfter, ?_, stripped, ?_, ?_, ends⟩
      · rw [visible_append, countClosedAfter, bracket, replicate_succ']
      · rw [← append_assoc (text ++ openedAfter), head?_strip, visible_append, visible_append,
          shape]
        rw [head?_strip, visible_append, shape] at noOpening
        simpa using noOpening
      · rw [← append_assoc (text ++ openedAfter), head?_strip, visible_append, shape]
        rw [head?_strip, shape] at noClosing
        simpa using noClosing
    rw [← Piece.stands_iff.mp longer]
    simp [addPiece_eq, closeGroups_succ, Option.bind_assoc]

/-- Behind a text, with no bracket that closes a group, a group is opened. -/
theorem addPiece_openingAfter {written : Text} (hasText : (Piece.ofText written).text ≠ [])
    (isOpen : (Piece.ofText written).closedAfter = 0) :
    groups.addPiece (.ofText (written ++ "[")) =
      (groups.addPiece (.ofText written)).bind (some ∘ openGroup) := by
  have stands := Piece.stands_ofText written
  generalize Piece.ofText written = piece at hasText isOpen stands ⊢
  obtain ⟨opened, closed, openedAfter, closedAfter, isWritten, countOpened, countClosed,
    countOpenedAfter, countClosedAfter, stripped, noOpening, noClosing, _, ends⟩ := stands
  obtain ⟨c, rest, shape⟩ := exists_cons_of_ne_nil (visible_ne_nil stripped hasText)
  rw [isOpen, replicate_zero] at countClosedAfter
  have longer : Piece.Stands { piece with openedAfter := piece.openedAfter + 1 }
      (written ++ "[") := by
    refine ⟨opened, closed, openedAfter ++ (closedAfter ++ "["), [], by simp [isWritten],
      countOpened, countClosed, ?_, by simp [isOpen, visible], stripped, ?_, ?_, ?_, ends⟩
    · rw [visible_append, visible_append, countOpenedAfter, countClosedAfter, replicate_succ']
      rfl
    · simp only [head?_strip, visible_append, shape] at noOpening ⊢
      simpa using noOpening
    · simp only [head?_strip, visible_append, shape] at noClosing ⊢
      simpa using noClosing
    · rw [getLast?_strip, ← append_assoc, ← append_assoc, visible_append]
      simp [visible, show isBlank '[' = false by decide]
  rw [← Piece.stands_iff.mp longer, addPiece_eq, addPiece_eq]
  simp [isOpen, openGroups_succ, closeGroups, Option.bind_assoc]

theorem foldlM_opening :
    (piecesOf ("[" ++ text)).foldlM addPiece groups =
      (piecesOf text).foldlM addPiece groups.openGroup := by
  obtain ⟨piece, pieces, split⟩ := Text.exists_splitOn_eq_cons ',' text
  have opened : Piece.ofText ("[" ++ piece) =
      { Piece.ofText piece with opened := (Piece.ofText piece).opened + 1 } := by
    have stripped : Text.strip ("[" ++ piece) = '[' :: Text.trimRight isBlank piece :=
      Text.strip_cons_of_not_blank (by decide) piece
    rw [Piece.ofText, stripped, dropLeading, if_pos rfl, Text.strip_trimRight]
    rfl
  rw [piecesOf, Text.splitOn_append_of_not_mem (by decide) split, map_cons, opened, piecesOf, split]
  rfl

theorem foldlM_comma :
    (piecesOf (text ++ ", " ++ more)).foldlM addPiece groups =
      ((piecesOf text).foldlM addPiece groups).bind ((piecesOf more).foldlM addPiece) := by
  rw [piecesOf_comma, foldlM_append]
  rfl

/-- What stands behind a text and has no comma belongs to the last piece. -/
theorem foldlM_append_ending {ending : Text} (plain : ',' ∉ ending)
    {change : Groups → Option Groups}
    (changes : ∀ before last, piecesOf text = before ++ [.ofText last] → ∀ groups : Groups,
      groups.addPiece (.ofText (last ++ ending)) = (groups.addPiece (.ofText last)).bind change) :
    (piecesOf (text ++ ending)).foldlM addPiece groups =
      ((piecesOf text).foldlM addPiece groups).bind change := by
  obtain ⟨pieces, last, isSplit, isLonger⟩ := Text.exists_splitOn_append plain text
  have isCut : piecesOf text = pieces.map .ofText ++ [.ofText last] := by simp [piecesOf, isSplit]
  rw [isCut, piecesOf, isLonger, map_append, map_singleton, foldlM_append, foldlM_append]
  simp [changes _ last isCut, Option.bind_assoc]

theorem foldlM_openingAfter {before : List Piece} {piece : Piece}
    (isCut : piecesOf text = before ++ [piece]) (hasText : piece.text ≠ [])
    (isOpen : piece.closedAfter = 0) :
    (piecesOf (text ++ "[")).foldlM addPiece groups =
      ((piecesOf text).foldlM addPiece groups).bind (some ∘ openGroup) := by
  refine foldlM_append_ending groups text (by decide) fun others last isSameCut started => ?_
  obtain rfl : piece = .ofText last := by
    simpa using congrArg getLast? (isCut.symm.trans isSameCut)
  exact addPiece_openingAfter started hasText isOpen

end Groups

/-- The pieces between the commas of a text put the items in any group.  Behind a parameter at the
end of the list a group may still be opened. -/
def ReadsAs (text : Text) (items : List Parameter) : Prop :=
  (∀ groups : Groups,
    (piecesOf text).foldlM Groups.addPiece groups = some (groups.append items)) ∧
  ∀ last, items.getLast? = some (.plain last) →
    ∃ before piece, piecesOf text = before ++ [piece] ∧ piece.text ≠ [] ∧ piece.closedAfter = 0

namespace ReadsAs

variable {items front back : List Parameter} {text more : Text}

theorem empty : ReadsAs [] [] := by
  have single : piecesOf [] = [⟨0, 0, [], 0, 0⟩] := forall₂_stands_iff.mp
    (.cons ⟨[], [], [], [], by decide⟩ .nil) |>.symm
  refine ⟨fun groups => ?_, nofun⟩
  simp [single, Groups.addPiece, Groups.openGroups, Groups.closeGroups, Groups.addText,
    Groups.append]

theorem parameter (notEmpty : text ≠ []) (isText : IsParameterText text) :
    ReadsAs text [.plain text] := by
  obtain ⟨stripped, noComma, front, back⟩ := isText
  have stands : Piece.Stands ⟨0, 0, text, 0, 0⟩ text := by
    refine ⟨[], [], [], [], by simp, rfl, rfl, rfl, rfl, stripped, ?_⟩
    simp only [append_nil, nil_append, stripped]
    exact ⟨fun first => (front _ first).1 rfl, fun first => (front _ first).2 rfl,
      fun last => (back _ last).2 rfl, fun last => (back _ last).1 rfl⟩
  have single : piecesOf text = [⟨0, 0, text, 0, 0⟩] := by
    rw [piecesOf, Text.splitOn_of_not_mem noComma, map_singleton, ← Piece.stands_iff.mp stands]
  refine ⟨fun groups => ?_, fun _ _ => ⟨[], _, single, notEmpty, rfl⟩⟩
  simp [single, Groups.addPiece, Groups.openGroups, Groups.closeGroups, Groups.addText,
    Groups.append, notEmpty]

/-- Items that are put in a group of their own, which is then closed, make an optional group. -/
theorem closed (reads : ReadsAs text items) (groups : Groups) :
    (piecesOf (text ++ "]")).foldlM Groups.addPiece groups.openGroup =
      some (groups.append [.optional items]) := by
  rw [Groups.foldlM_append_ending groups.openGroup text (by decide) fun _ last _ groups =>
    groups.addPiece_closing last, reads.1]
  rfl

theorem group (reads : ReadsAs text items) : ReadsAs ("[" ++ text ++ "]") [.optional items] := by
  refine ⟨fun groups => ?_, nofun⟩
  rw [append_assoc, Groups.foldlM_opening, reads.closed]

theorem comma (first : ReadsAs text front) (second : ReadsAs more back) (notEmpty : back ≠ []) :
    ReadsAs (text ++ ", " ++ more) (front ++ back) := by
  refine ⟨fun groups => ?_, fun last isLast => ?_⟩
  · rw [Groups.foldlM_comma, first.1, Option.bind_some, second.1]
    simp [Groups.append]
  · rw [getLast?_append_of_ne_nil _ notEmpty] at isLast
    obtain ⟨before, piece, isCut, hasText, isOpen⟩ := second.2 last isLast
    exact ⟨piecesOf text ++ before, piece, by rw [piecesOf_comma, isCut, append_assoc], hasText,
      isOpen⟩

theorem bracketFirst {last : Text} (first : ReadsAs text (front ++ [.plain last]))
    (second : ReadsAs more items) :
    ReadsAs (text ++ "[, " ++ more ++ "]") (front ++ [.plain last] ++ [.optional items]) := by
  obtain ⟨before, piece, isCut, hasText, isOpen⟩ := first.2 last getLast?_concat
  have regrouped : text ++ "[, " ++ more ++ "]" = text ++ "[" ++ ", " ++ (more ++ "]") := by simp
  refine ⟨fun groups => ?_, fun plain isLast => ?_⟩
  · rw [regrouped, Groups.foldlM_comma, Groups.foldlM_openingAfter _ _ isCut hasText isOpen,
      first.1]
    exact (second.closed _).trans (by simp [Groups.append])
  · rw [getLast?_concat] at isLast
    cases isLast

end ReadsAs

theorem Written.readsAs {items : List Parameter} {text : Text} (written : Written items text)
    (proper : ∀ text ∈ allTexts items, text ≠ [] ∧ IsParameterText text) : ReadsAs text items := by
  induction written with
  | empty => exact .empty
  | parameter text =>
    obtain ⟨notEmpty, isText⟩ := proper text mem_cons_self
    exact .parameter notEmpty isText
  | group _ ih =>
    rw [allTexts, allTexts, append_nil] at proper
    exact (ih proper).group
  | comma _ _ _ backNotEmpty first second =>
    rw [allTexts_append, forall_mem_append] at proper
    exact (first proper.1).comma (second proper.2) backNotEmpty
  | @bracketFirst front items last _ _ _ _ first second =>
    have split : front ++ [.plain last, .optional items] =
        (front ++ [.plain last]) ++ [.optional items] := by simp
    rw [split, allTexts_append, forall_mem_append] at proper
    rw [allTexts, allTexts, append_nil] at proper
    rw [split]
    exact (first proper.1).bracketFirst (second proper.2)

/-- A list of parameters and groups is read back from the text in which it is written with commas
between its items and brackets around its groups, and also from the texts in which the opening
brackets of some groups stand in front of the comma behind a parameter. -/
theorem parameter_lists_read_back (items : List Parameter)
    (proper : ∀ text ∈ allTexts items, text ≠ [] ∧ IsParameterText text) :
    parseList (renderAll items) = items ∧
      ∀ text, Written items text → parseList text = items := by
  have reads : ∀ text, Written items text → parseList text = items := by
    intro text written
    have puts := (written.readsAs proper).1 {}
    rw [piecesOf] at puts
    rw [parseList, puts]
    rfl
  exact ⟨reads _ (written_renderAll items), reads⟩

/-- A group behind a parameter, with an empty one in it, and a group that only holds another. -/
def nestedGroups : List Parameter :=
  [.plain "a", .optional [.plain "b", .optional []], .optional [.optional [.plain "c"]]]

theorem parameter_lists_read_back_nestedGroups :
    parseList "a, [b, []], [[c]]" = nestedGroups ∧
      parseList "a[, b[, ]], [[c]]" = nestedGroups := by
  have proper : ∀ text ∈ allTexts nestedGroups, text ≠ [] ∧ IsParameterText text := by
    intro text member
    have isLetter : text = ['a'] ∨ text = ['b'] ∨ text = ['c'] := by
      simpa [nestedGroups, allTexts, texts] using member
    rcases isLetter with rfl | rfl | rfl
    all_goals exact ⟨List.cons_ne_nil _ _, .singleton (by decide) (by decide) (by decide)⟩
  obtain ⟨rendered, reads⟩ := parameter_lists_read_back nestedGroups proper
  refine ⟨rendered, reads _ ?_⟩
  have inner : Written [.plain "b", .optional []] "b[, ]" :=
    @Written.bracketFirst [] _ _ _ _ (.parameter "b") .empty
  have first : Written [.plain "a", .optional [.plain "b", .optional []]] "a[, b[, ]]" :=
    @Written.bracketFirst [] _ _ _ _ (.parameter "a") inner
  exact first.comma (.group (.group (.parameter "c"))) (by simp) (by simp)

end Parameter

end MatlabDocs
