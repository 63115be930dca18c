import Mathlib.Data.List.Forall2
import MatlabDocs.Proofs.Reference.PackageSigns

/-!
# Argument lists are read as a whole or not at all

Any text may stand between the parentheses of a signature.  It is cut at its commas, and the
brackets around each piece are counted.  Starting from depth one, an opening bracket leads one
level deeper and a closing bracket one level back.  If the depth never reaches zero and ends at
one again, all pieces are parameters and each opening bracket is a group.  Otherwise nothing of the
groups that were built is kept, and the whole text is one parameter.

Opening a group, closing one and adding a text are the moves from which the groups are built.
What one move does to the depth, to the texts and to the number of groups gives what a whole run
of them does.
-/

namespace MatlabDocs

open List SignaturePart

def visible (text : Text) : Text :=
  text.filter (!isBlank ·)

theorem visible_append (text more : Text) : visible (text ++ more) = visible text ++ visible more :=
  filter_append ..

theorem visible_reverse (text : Text) : visible text.reverse = (visible text).reverse :=
  filter_reverse ..

theorem visible_eq_nil_iff {text : Text} : visible text = [] ↔ ∀ c ∈ text, isBlank c := by
  simp [visible]

namespace Text

theorem strip_cons_of_not_blank {c : Char} (notBlank : isBlank c = false) (text : Text) :
    strip (c :: text) = c :: trimRight isBlank text := by
  have kept : ∀ first ∈ [c].getLast?, isBlank first = false := by
    simpa using notBlank
  rw [strip, trim, dropWhile_cons_of_neg (by simp [notBlank])]
  exact trimRight_append_of_getLast? kept text

variable (text : Text)

theorem strip_strip : text.strip.strip = text.strip := by
  obtain ⟨_, _, _, _, front, back⟩ := exists_append_trim_append isBlank text
  exact trim_of_ends front back

theorem strip_trimRight : strip (trimRight isBlank text) = strip text := by
  obtain ⟨back, split, dropped⟩ := exists_trimRight_append isBlank text
  conv_rhs => rw [split]
  exact (strip_append_of_blank_right dropped _).symm

theorem reverse_strip : text.strip.reverse = strip text.reverse := by
  obtain ⟨front, back, split, dropped, frontKept, backKept⟩ :=
    exists_append_trim_append isBlank text
  obtain ⟨droppedFront, droppedBack⟩ := forall_mem_append.mp dropped
  have reversed : text.reverse = back.reverse ++ (text.strip.reverse ++ front.reverse) := by
    conv_lhs => rw [split]
    simp [strip]
  have inner : strip text.strip.reverse = text.strip.reverse :=
    trim_of_ends (by rwa [head?_reverse]) (by rwa [getLast?_reverse])
  rw [reversed, strip_append_of_blank (by simpa using droppedBack),
    strip_append_of_blank_right (by simpa using droppedFront), inner]

end Text

namespace Parameter

section

variable {bracket : Char} (notBlank : isBlank bracket = false)
include notBlank

/-- Brackets with blanks between them are taken off the start of a text, with the blanks. -/
theorem dropLeading_strip {front rest : Text} {count : Nat}
    (brackets : visible front = replicate count bracket)
    (different : rest.strip.head? ≠ some bracket) :
    dropLeading bracket (Text.strip (front ++ rest)) = (count, rest.strip) := by
  induction count generalizing front with
  | zero =>
    rw [Text.strip_append_of_blank (visible_eq_nil_iff.mp brackets)]
    cases shape : rest.strip with
    | nil => rw [dropLeading]
    | cons c others =>
      rw [shape, head?_cons] at different
      rw [dropLeading, if_neg fun same => different (congrArg some same)]
  | succ count ih =>
    obtain ⟨blanks, others, rfl, blank, _, inner⟩ := filter_eq_cons_iff.mp brackets
    have allBlank : ∀ c ∈ blanks, isBlank c := by simpa using blank
    rw [append_assoc, cons_append, Text.strip_append_of_blank allBlank,
      Text.strip_cons_of_not_blank notBlank, dropLeading, if_pos rfl, Text.strip_trimRight,
      ih inner]

theorem dropTrailing_strip {rest back : Text} {count : Nat}
    (brackets : visible back = replicate count bracket)
    (different : rest.strip.getLast? ≠ some bracket) :
    dropTrailing bracket (Text.strip (rest ++ back)) = (count, rest.strip) := by
  have reversed : visible back.reverse = replicate count bracket := by
    rw [visible_reverse, brackets, reverse_replicate]
  have leading := @dropLeading_strip bracket notBlank back.reverse rest.reverse count reversed
    (by rwa [← Text.reverse_strip, head?_reverse])
  rw [dropTrailing, Text.reverse_strip, reverse_append, leading, ← Text.reverse_strip]
  exact Prod.ext rfl (reverse_reverse _)

theorem exists_append_dropLeading (text : Text) :
    ∃ front blanks, text = front ++ ((dropLeading bracket text.strip).2 ++ blanks) ∧
      visible front = replicate (dropLeading bracket text.strip).1 bracket ∧
      visible blanks = [] ∧
      (dropLeading bracket text.strip).2.strip = (dropLeading bracket text.strip).2 ∧
      (dropLeading bracket text.strip).2.head? ≠ some bracket := by
  obtain ⟨before, behind, split, dropped, _, _⟩ := Text.exists_append_trim_append isBlank text
  have blank : ∀ blanks, (∀ c ∈ blanks, c ∈ before ++ behind) → visible blanks = [] :=
    fun blanks among => visible_eq_nil_iff.mpr fun c member => dropped c (among c member)
  have noneBefore : visible before = [] := blank before (by simp +contextual)
  have noneBehind : visible behind = [] := blank behind (by simp +contextual)
  change text = before ++ text.strip ++ behind at split
  cases shape : text.strip with
  | nil =>
    rw [shape] at split
    rw [dropLeading]
    exact ⟨before, behind, by simpa using split, noneBefore, noneBehind, rfl, by simp⟩
  | cons c rest =>
    have shorter : rest.length < text.length := by
      have length := Text.length_strip_le text
      rw [shape, length_cons] at length
      exact length
    rw [shape] at split
    by_cases same : c = bracket
    · obtain ⟨front, blanks, whole, brackets, noneLeft, stripped, different⟩ :=
        exists_append_dropLeading rest
      rw [dropLeading, if_pos same]
      refine ⟨before ++ bracket :: front, blanks ++ behind, ?_, ?_, ?_, stripped, different⟩
      · conv_lhs => rw [split, same, whole]
        simp
      · have counted : visible (bracket :: front) = bracket :: visible front := by
          simp [visible, notBlank]
        rw [visible_append, noneBefore, counted, brackets]
        rfl
      · rw [visible_append, noneLeft, noneBehind, append_nil]
    · have stripped := Text.strip_strip text
      rw [shape] at stripped
      rw [dropLeading, if_neg same]
      exact ⟨before, behind, by simpa using split, noneBefore, noneBehind, stripped,
        by simpa using same⟩
termination_by text.length

theorem exists_append_dropTrailing (text : Text) :
    ∃ blanks back, text = blanks ++ ((dropTrailing bracket text.strip).2 ++ back) ∧
      visible back = replicate (dropTrailing bracket text.strip).1 bracket ∧
      visible blanks = [] ∧
      (dropTrailing bracket text.strip).2.strip = (dropTrailing bracket text.strip).2 ∧
      (dropTrailing bracket text.strip).2.getLast? ≠ some bracket := by
  obtain ⟨front, blanks, whole, brackets, noneLeft, stripped, different⟩ :=
    exists_append_dropLeading notBlank text.reverse
  rw [dropTrailing, Text.reverse_strip]
  refine ⟨blanks.reverse, front.reverse, ?_, ?_, ?_, ?_, ?_⟩
  · have reversed := congrArg reverse whole
    simpa using reversed
  · rw [visible_reverse, brackets, reverse_replicate]
  · rw [visible_reverse, noneLeft, reverse_nil]
  · rw [← Text.reverse_strip, stripped]
  · rwa [getLast?_reverse]

end

namespace Piece

/-- The piece is what stands between two commas: brackets with blanks between them around a text.
As many brackets as possible are told from the text, first those in front of it. -/
def Stands (piece : Piece) (written : Text) : Prop :=
  ∃ opened closed openedAfter closedAfter : Text,
    written = opened ++ (closed ++ (piece.text ++ openedAfter ++ closedAfter)) ∧
    visible opened = replicate piece.opened '[' ∧
    visible closed = replicate piece.closed ']' ∧
    visible openedAfter = replicate piece.openedAfter '[' ∧
    visible closedAfter = replicate piece.closedAfter ']' ∧
    piece.text.strip = piece.text ∧
    (closed ++ (piece.text ++ openedAfter ++ closedAfter)).strip.head? ≠ some '[' ∧
    (piece.text ++ openedAfter ++ closedAfter).strip.head? ≠ some ']' ∧
    (piece.text ++ openedAfter).strip.getLast? ≠ some ']' ∧
    piece.text.getLast? ≠ some '['

theorem stands_ofText (written : Text) : (ofText written).Stands written := by
  have counted : ofText written =
      let start := dropLeading '[' written.strip
      let inner := dropLeading ']' start.2
      let outer := dropTrailing ']' inner.2
      let last := dropTrailing '[' outer.2
      ⟨start.1, inner.1, last.2, last.1, outer.1⟩ := rfl
  rw [counted]
  dsimp only
  have starts := @exists_append_dropLeading '[' (by decide) written
  generalize dropLeading '[' written.strip = start at starts ⊢
  obtain ⟨opened, blanks, whole, countOpened, noBlanks, startStripped, noOpening⟩ := starts
  have inners := @exists_append_dropLeading ']' (by decide) start.2
  rw [startStripped] at inners
  generalize dropLeading ']' start.2 = inner at inners ⊢
  obtain ⟨closed, moreBlanks, isStart, countClosed, noMore, innerStripped, noClosing⟩ := inners
  have outers := @exists_append_dropTrailing ']' (by decide) inner.2
  rw [innerStripped] at outers
  generalize dropTrailing ']' inner.2 = outer at outers ⊢
  obtain ⟨gap, closedAfter, isInner, countClosedAfter, noGap, outerStripped, noClosingAfter⟩ :=
    outers
  have lasts := @exists_append_dropTrailing '[' (by decide) outer.2
  rw [outerStripped] at lasts
  generalize dropTrailing '[' outer.2 = last at lasts ⊢
  obtain ⟨innerGap, openedAfter, isOuter, countOpenedAfter, noInnerGap, lastStripped,
    noOpeningAfter⟩ := lasts
  -- The blanks that each step leaves aside go to the brackets next to them.
  have behind : visible (moreBlanks ++ blanks) = [] := by
    rw [visible_append, noMore, noBlanks, append_nil]
  have between : visible (gap ++ innerGap) = [] := by
    rw [visible_append, noGap, noInnerGap, append_nil]
  have wholeInner : gap ++ innerGap ++ (last.2 ++ openedAfter ++ closedAfter) = inner.2 := by
    rw [isInner, isOuter]
    simp
  have wholeStart : closed ++ (gap ++ innerGap) ++
      (last.2 ++ openedAfter ++ (closedAfter ++ (moreBlanks ++ blanks))) = start.2 ++ blanks := by
    rw [isStart, ← wholeInner]
    simp
  refine ⟨opened, closed ++ (gap ++ innerGap), openedAfter, closedAfter ++ (moreBlanks ++ blanks),
    ?_, countOpened, ?_, countOpenedAfter, ?_, lastStripped, ?_, ?_, ?_, noOpeningAfter⟩
  · rw [wholeStart]
    exact whole
  · rw [visible_append, between, countClosed, append_nil]
  · rw [visible_append, behind, countClosedAfter, append_nil]
  · rw [wholeStart, Text.strip_append_of_blank_right (visible_eq_nil_iff.mp noBlanks),
      startStripped]
    exact noOpening
  · rw [← append_assoc, Text.strip_append_of_blank_right (visible_eq_nil_iff.mp behind),
      ← Text.strip_append_of_blank (visible_eq_nil_iff.mp between), wholeInner, innerStripped]
    exact noClosing
  · rw [← Text.strip_append_of_blank (visible_eq_nil_iff.mp noInnerGap), ← isOuter, outerStripped]
    exact noClosingAfter

/-- Exactly one piece stands between two commas. -/
theorem stands_iff {piece : Piece} {written : Text} :
    piece.Stands written ↔ piece = ofText written := by
  constructor
  · rintro ⟨opened, closed, openedAfter, closedAfter, rfl, countOpened, countClosed,
      countOpenedAfter, countClosedAfter, stripped, noOpening, noClosing, noClosingAfter,
      noOpeningAfter⟩
    have opening := dropLeading_strip (by decide) countOpened noOpening
    have closing := dropLeading_strip (by decide) countClosed noClosing
    have closingAfter := dropTrailing_strip (by decide) countClosedAfter noClosingAfter
    have openingAfter := @dropTrailing_strip '[' (by decide) piece.text _ _ countOpenedAfter
      (by rwa [stripped])
    rw [ofText, opening]
    dsimp only
    rw [closing]
    dsimp only
    rw [closingAfter]
    dsimp only
    rw [openingAfter, stripped]
  · rintro rfl
    exact stands_ofText written

def brackets (piece : Piece) : List Char :=
  replicate piece.opened '[' ++ (replicate piece.closed ']' ++
    (replicate piece.openedAfter '[' ++ replicate piece.closedAfter ']'))

end Piece

def depthAfter (brackets : List Char) : Int :=
  1 + brackets.count '[' - brackets.count ']'

/-- The depth never reaches zero and ends at one. -/
structure Matched (brackets : List Char) : Prop where
  above : ∀ front, front <+: brackets → depthAfter front ≠ 0
  ends : depthAfter brackets = 1

theorem matched_iff_take (brackets : List Char) :
    ((∀ length < brackets.length + 1, depthAfter (brackets.take length) ≠ 0) ∧
      depthAfter brackets = 1) ↔ Matched brackets := by
  constructor
  · rintro ⟨above, ends⟩
    refine ⟨fun front isFront => ?_, ends⟩
    rw [prefix_iff_eq_take.mp isFront]
    exact above _ (Nat.lt_succ_of_le isFront.length_le)
  · rintro ⟨above, ends⟩
    exact ⟨fun length _ => above _ (List.take_prefix length brackets), ends⟩

instance (brackets : List Char) : Decidable (Matched brackets) :=
  decidable_of_iff _ (matched_iff_take brackets)

mutual

def texts : Parameter → List Text
  | plain text => [text]
  | optional group => allTexts group

def allTexts : List Parameter → List Text
  | [] => []
  | item :: items => item.texts ++ allTexts items

end

theorem allTexts_append (front back : List Parameter) :
    allTexts (front ++ back) = allTexts front ++ allTexts back := by
  induction front with
  | nil => rfl
  | cons item front ih => rw [cons_append, allTexts, ih, allTexts, append_assoc]

mutual

/-- The number of groups, those in other groups among them. -/
def groupCount : Parameter → Nat
  | plain _ => 0
  | optional group => groupCountAll group + 1

def groupCountAll : List Parameter → Nat
  | [] => 0
  | item :: items => item.groupCount + groupCountAll items

end

theorem groupCountAll_append (front back : List Parameter) :
    groupCountAll (front ++ back) = groupCountAll front + groupCountAll back := by
  induction front with
  | nil => simp [groupCountAll]
  | cons item front ih => simp [groupCountAll, ih, Nat.add_assoc]

theorem eq_map_plain_of_groupCountAll {items : List Parameter} (noGroup : groupCountAll items = 0) :
    items = (allTexts items).map plain := by
  induction items with
  | nil => rfl
  | cons item items ih =>
    rw [groupCountAll, Nat.add_eq_zero_iff] at noGroup
    cases item with
    | plain text => exact congrArg _ (ih noGroup.2)
    | optional group => exact absurd noGroup.1 (by simp [groupCount])

/-- A step in which groups are built. -/
inductive Move where
  | opening
  | closing
  | word (text : Text)

namespace Move

def bracket? : Move → Option Char
  | opening => some '['
  | closing => some ']'
  | word _ => none

def added? : Move → Option Text
  | word text => if text = [] then none else some text
  | _ => none

end Move

def Piece.moves (piece : Piece) : List Move :=
  replicate piece.opened .opening ++ (replicate piece.closed .closing ++
    (.word piece.text :: (replicate piece.openedAfter .opening ++
      replicate piece.closedAfter .closing)))

variable (piece : Piece) {arguments : Text}

theorem Piece.filterMap_added?_moves :
    piece.moves.filterMap Move.added? = [piece.text].filter (· ≠ []) := by
  by_cases empty : piece.text = []
  · simp [moves, Move.added?, filterMap_replicate, empty]
  · simp [moves, Move.added?, filterMap_replicate, empty]

namespace Groups

variable (count : Nat) (groups : Groups)

def move : Move → Option Groups
  | .opening => some groups.openGroup
  | .closing => groups.closeGroup
  | .word text => some (groups.addText text)

theorem foldlM_replicate_opening :
    (replicate count Move.opening).foldlM move groups = some (openGroups count groups) := by
  induction count generalizing groups with
  | zero => rfl
  | succ count ih =>
    rw [replicate_succ, foldlM_cons, openGroups]
    exact ih groups.openGroup

theorem foldlM_replicate_closing :
    (replicate count Move.closing).foldlM move groups = closeGroups count groups := by
  induction count generalizing groups with
  | zero => rfl
  | succ count ih =>
    rw [replicate_succ, foldlM_cons, closeGroups]
    exact congrArg _ (funext ih)

theorem addPiece_eq (piece : Piece) :
    groups.addPiece piece =
      (closeGroups piece.closed (openGroups piece.opened groups)).bind fun started =>
        closeGroups piece.closedAfter (openGroups piece.openedAfter (started.addText piece.text)) :=
  rfl

private theorem foldlM_moves (piece : Piece) (groups : Groups) :
    piece.moves.foldlM move groups = groups.addPiece piece := by
  rw [Piece.moves, foldlM_append, foldlM_replicate_opening, Option.bind_eq_bind,
    Option.bind_some, foldlM_append, foldlM_replicate_closing, addPiece_eq]
  refine congrArg _ (funext fun started => ?_)
  rw [foldlM_cons]
  show (foldlM move (started.addText piece.text) _) = _
  rw [foldlM_append, foldlM_replicate_opening, Option.bind_eq_bind, Option.bind_some,
    foldlM_replicate_closing]

theorem foldlM_flatMap_moves (pieces : List Piece) (groups : Groups) :
    (pieces.flatMap Piece.moves).foldlM move groups = pieces.foldlM addPiece groups := by
  induction pieces generalizing groups with
  | nil => rfl
  | cons piece pieces ih =>
    rw [flatMap_cons, foldlM_append, foldlM_moves, foldlM_cons]
    exact congrArg _ (funext ih)

def items : List Parameter :=
  groups.outer.reverse.flatten ++ groups.inner

def started : Nat :=
  groupCountAll groups.items + groups.outer.length

/-- What a move does to the depth, the texts and the number of groups. -/
structure Moved (groups next : Groups) (brackets : List Char) (texts : List Text) : Prop where
  depth : (next.outer.length : Int) + 1 = groups.outer.length + depthAfter brackets
  texts : allTexts next.items = allTexts groups.items ++ texts
  started : next.started = groups.started + brackets.count '['

variable {groups : Groups}

variable {next : Groups} {moves : List Move}

theorem moved_of_move {step : Move} (isNext : groups.move step = some next) :
    Moved groups next step.bracket?.toList step.added?.toList := by
  cases step with
  | opening =>
    obtain rfl := Option.some.inj isNext
    constructor
    · simp [openGroup, Move.bracket?, depthAfter]
      omega
    · simp [openGroup, items, Move.added?]
    · simp [openGroup, Groups.started, items, Move.bracket?]
      omega
  | closing =>
    cases shape : groups.outer with
    | nil => simp [move, closeGroup, shape] at isNext
    | cons parent rest =>
      have isClosed : next = ⟨parent ++ [.optional groups.inner], rest⟩ := by
        simpa [move, closeGroup, shape] using isNext.symm
      subst isClosed
      constructor
      · simp [shape, Move.bracket?, depthAfter]
      · simp [items, shape, Move.added?, allTexts_append, allTexts, texts]
      · simp [Groups.started, items, shape, Move.bracket?, groupCountAll_append, groupCountAll,
          groupCount]
        omega
  | word text =>
    obtain rfl := Option.some.inj isNext
    by_cases empty : text = []
    · constructor
      · simp [addText, empty, Move.bracket?, depthAfter]
      · simp [addText, empty, Move.added?]
      · simp [addText, empty, Move.bracket?]
    · constructor
      · simp [addText, empty, Move.bracket?, depthAfter]
      · simp [addText, empty, Move.added?, items, allTexts_append, allTexts, Parameter.texts]
      · simp [addText, empty, Move.bracket?, Groups.started, items, groupCountAll_append,
          groupCountAll, groupCount]

theorem Moved.trans {next last : Groups} {brackets more : List Char} {texts others : List Text}
    (first : Moved groups next brackets texts) (second : Moved next last more others) :
    Moved groups last (brackets ++ more) (texts ++ others) where
  depth := by
    have both := first.depth
    have later := second.depth
    simp only [depthAfter, count_append, Int.natCast_add] at both later ⊢
    omega
  texts := by rw [second.texts, first.texts, append_assoc]
  started := by rw [second.started, first.started, count_append, Nat.add_assoc]

theorem Moved.refl (groups : Groups) : Moved groups groups [] [] where
  depth := by
    simp [depthAfter]
  texts := (append_nil _).symm
  started := rfl

theorem moved_of_foldlM (isNext : moves.foldlM move groups = some next) :
    Moved groups next (moves.filterMap Move.bracket?) (moves.filterMap Move.added?) := by
  induction moves generalizing groups with
  | nil =>
    obtain rfl := Option.some.inj isNext
    exact .refl groups
  | cons step moves ih =>
    rw [foldlM_cons] at isNext
    obtain ⟨middle, isMiddle, isLast⟩ := Option.bind_eq_some_iff.mp isNext
    have both := (moved_of_move isMiddle).trans (ih isLast)
    have split : ∀ {β : Type} (f : Move → Option β),
        (f step).toList ++ moves.filterMap f = (step :: moves).filterMap f := by
      intro β f
      cases found : f step <;> simp [found]
    rwa [split, split] at both

private theorem depthAfter_append (front back : List Char) :
    depthAfter (front ++ back) = depthAfter front + depthAfter back - 1 := by
  simp only [depthAfter, count_append, Int.natCast_add]
  omega

/-- Moves that cannot all be made close more groups than there are. -/
private theorem exists_depth_eq_zero (fails : moves.foldlM move groups = none) :
    ∃ front, front <+: moves.filterMap Move.bracket? ∧
      (groups.outer.length : Int) + depthAfter front = 0 := by
  induction moves generalizing groups with
  | nil => cases fails
  | cons step moves ih =>
    rw [foldlM_cons] at fails
    cases moved : groups.move step with
    | none =>
      -- Only the closing of a group can fail, and only if none is open.
      cases step with
      | opening => cases moved
      | word text => cases moved
      | closing =>
        have noneOpen : groups.outer = [] := by
          cases shape : groups.outer with
          | nil => rfl
          | cons parent rest => simp [move, closeGroup, shape] at moved
        refine ⟨[']'], ?_, by rw [noneOpen]; rfl⟩
        rw [filterMap_cons_some (show Move.closing.bracket? = some ']' from rfl)]
        exact prefix_append [']'] _
    | some next =>
      rw [moved] at fails
      obtain ⟨front, isFront, zero⟩ := ih fails
      have depth := (moved_of_move moved).depth
      have split : (step :: moves).filterMap Move.bracket? =
          step.bracket?.toList ++ moves.filterMap Move.bracket? := by
        cases found : step.bracket? <;> simp [found]
      refine ⟨step.bracket?.toList ++ front, ?_, ?_⟩
      · rw [split]
        exact (prefix_append_right_inj _).mpr isFront
      · rw [depthAfter_append]
        omega

/-- All moves can be made, and no group is left open, exactly if the brackets match. -/
theorem foldlM_eq_some_iff (moves : List Move) :
    (∃ parameters, moves.foldlM move {} = some ⟨parameters, []⟩) ↔
      Matched (moves.filterMap Move.bracket?) := by
  constructor
  · rintro ⟨parameters, made⟩
    constructor
    · intro front isFront zero
      obtain ⟨some, isPrefix, rfl⟩ := prefix_filterMap_iff.mp isFront
      obtain ⟨rest, rfl⟩ := isPrefix
      rw [foldlM_append] at made
      obtain ⟨middle, isMiddle, _⟩ := Option.bind_eq_some_iff.mp made
      have depth := (moved_of_foldlM isMiddle).depth
      simp only [zero, length_nil] at depth
      omega
    · have depth := (moved_of_foldlM made).depth
      simp only [length_nil] at depth
      omega
  · intro isMatched
    cases made : moves.foldlM move {} with
    | none =>
      obtain ⟨front, isFront, zero⟩ := exists_depth_eq_zero made
      refine absurd ?_ (isMatched.above front isFront)
      simpa using zero
    | some last =>
      obtain ⟨parameters, stillOpen⟩ := last
      have depth := (moved_of_foldlM made).depth
      rw [isMatched.ends] at depth
      have closed : stillOpen.length = 0 := by
        simp only [length_nil] at depth
        omega
      rw [length_eq_zero_iff.mp closed]
      exact ⟨parameters, rfl⟩

end Groups

def piecesOf (arguments : Text) : List Piece :=
  (arguments.splitOn ',').map Piece.ofText

variable (pieces : List Piece)

def bracketsOf : List Char :=
  pieces.flatMap Piece.brackets

theorem filterMap_bracket?_flatMap :
    (pieces.flatMap Piece.moves).filterMap Move.bracket? = bracketsOf pieces := by
  rw [filterMap_flatMap, bracketsOf]
  exact congrArg (pieces.flatMap ·) (funext fun piece => by
    simp [Piece.moves, Piece.brackets, Move.bracket?, filterMap_replicate, filterMap_cons])

private theorem filterMap_added?_flatMap :
    (pieces.flatMap Piece.moves).filterMap Move.added? =
      (pieces.map Piece.text).filter (· ≠ []) := by
  induction pieces with
  | nil => rfl
  | cons piece pieces ih =>
    rw [flatMap_cons, filterMap_append, ih, Piece.filterMap_added?_moves,
      ← filter_append, map_cons, singleton_append]

theorem parseList_of_matched (isMatched : Matched (bracketsOf (piecesOf arguments))) :
    allTexts (parseList arguments) = ((piecesOf arguments).map Piece.text).filter (· ≠ []) ∧
      groupCountAll (parseList arguments) = (bracketsOf (piecesOf arguments)).count '[' := by
  rw [← filterMap_bracket?_flatMap] at isMatched
  obtain ⟨parameters, made⟩ := (Groups.foldlM_eq_some_iff _).mpr isMatched
  have moved := Groups.moved_of_foldlM made
  rw [Groups.foldlM_flatMap_moves] at made
  have parsed : parseList arguments = parameters := by
    rw [parseList]
    simp only [piecesOf] at made
    rw [made]
  rw [filterMap_bracket?_flatMap, filterMap_added?_flatMap] at moved
  have texts := moved.texts
  have started := moved.started
  simp only [Groups.started, Groups.items, reverse_nil, flatten_nil, nil_append,
    length_nil, allTexts, groupCountAll, Nat.zero_add, Nat.add_zero] at texts started
  rw [parsed]
  exact ⟨texts, started⟩

theorem parseList_of_not_matched (notMatched : ¬ Matched (bracketsOf (piecesOf arguments))) :
    parseList arguments = [.plain arguments] := by
  rw [← filterMap_bracket?_flatMap, ← Groups.foldlM_eq_some_iff,
    Groups.foldlM_flatMap_moves] at notMatched
  rw [parseList]
  split
  · rename_i parameters made
    exact absurd ⟨parameters, made⟩ notMatched
  · rfl

theorem forall₂_stands_iff {pieces : List Piece} {texts : List Text} :
    List.Forall₂ Piece.Stands pieces texts ↔ pieces = texts.map Piece.ofText := by
  have isEqual : Piece.Stands = fun piece written => piece = Piece.ofText written := by
    funext piece written
    exact propext Piece.stands_iff
  rw [isEqual, ← forall₂_map_right_iff, forall₂_eq_eq_eq]

theorem Piece.Stands.isInfix {piece : Piece} {written : Text} (stands : piece.Stands written) :
    piece.text <:+: written := by
  obtain ⟨opened, closed, openedAfter, closedAfter, rfl, _⟩ := stands
  exact ⟨opened ++ closed, openedAfter ++ closedAfter, by simp⟩

private theorem Piece.count_brackets :
    piece.brackets.count '[' = piece.opened + piece.openedAfter ∧
      piece.brackets.count ']' = piece.closed + piece.closedAfter := by
  simp [brackets, count_replicate]

/-- Where matching brackets leave the whole list as one parameter, there are no brackets. -/
theorem piecesOf_of_parseList (isMatched : Matched (bracketsOf (piecesOf arguments)))
    (isPlain : parseList arguments = [.plain arguments]) :
    piecesOf arguments = [⟨0, 0, arguments, 0, 0⟩] ∧ arguments ≠ [] := by
  obtain ⟨texts, groups⟩ := parseList_of_matched isMatched
  rw [isPlain] at texts groups
  have isText : arguments ∈ ((piecesOf arguments).map Piece.text).filter (· ≠ []) := by
    rw [← texts]
    exact mem_singleton.mpr rfl
  obtain ⟨isPiece, notEmpty⟩ := mem_filter.mp isText
  obtain ⟨piece, member, textIs⟩ := mem_map.mp isPiece
  obtain ⟨written, isWritten, rfl⟩ := mem_map.mp member
  have noComma : ',' ∉ arguments := by
    rw [← textIs]
    intro comma
    exact Text.not_mem_of_mem_splitOn written isWritten
      ((Piece.stands_ofText written).isInfix.subset comma)
  have onePiece : arguments.splitOn ',' = [arguments] := Text.splitOn_of_not_mem noComma
  obtain rfl : written = arguments := by simpa [onePiece] using isWritten
  have single : piecesOf written = [Piece.ofText written] := by rw [piecesOf, onePiece]; rfl
  have ends := isMatched.ends
  have counts := (Piece.ofText written).count_brackets
  simp only [single, bracketsOf, flatMap_singleton, depthAfter, counts] at ends groups
  have noGroup : groupCountAll [.plain written] = 0 := rfl
  refine ⟨?_, by simpa using notEmpty⟩
  rw [single]
  refine congrArg (fun piece => [piece]) ?_
  cases shape : Piece.ofText written with
  | mk opened closed text openedAfter closedAfter =>
    rw [shape] at ends groups textIs
    dsimp only at ends groups textIs
    rw [Piece.mk.injEq]
    exact ⟨by omega, by omega, textIs, by omega, by omega⟩

end Parameter

def SignaturePart.parameters? : SignaturePart → Option (List Parameter)
  | .parameters list => some list
  | _ => none

private theorem filterMap_parameters?_readSignature? {text : Text} {parts : SignatureParts}
    (accepted : SignatureParts.ofDescription? text = some parts) {arguments : Text}
    (hasArguments : parts.arguments = some arguments) (notEmpty : arguments ≠ [])
    (sort : DescriptionSort) (settings : DisplaySettings) (type : Text) (scopeClass : Option Text)
    (options : DescriptionOptions) :
    ∃ signature, readSignature? sort settings type scopeClass options text = some signature ∧
      signature.parts.filterMap parameters? = [Parameter.parseList arguments] := by
  refine ⟨_, readSignature?_of_accepted accepted sort settings type scopeClass options, ?_⟩
  obtain ⟨c, rest, rfl⟩ := exists_cons_of_ne_nil notEmpty
  have inFront : (leading sort type).filterMap parameters? = [] := by
    rw [leading]
    split <;> split <;> rfl
  have between : ∀ qualifier : Option Text,
      (qualifier.toList.map SignaturePart.qualifier).filterMap SignaturePart.parameters? = [] := by
    intro qualifier
    cases qualifier <;> rfl
  have behind : (trailing sort type options.note parts).filterMap
      parameters? = [Parameter.parseList (c :: rest)] := by
    have alone : [Parameter.parseList (c :: rest)] =
        [Parameter.parseList (c :: rest)] ++ [] ++ [] := rfl
    unfold trailing
    rw [hasArguments, filterMap_append, filterMap_append, alone]
    refine congrArg₂ _ (congrArg₂ _ rfl ?_) ?_
    · split <;> rfl
    · split <;> rfl
  dsimp only
  rw [filterMap_append, filterMap_append, inFront, between,
    filterMap_cons_none (show parameters? (.name _) = none from rfl), behind]
  rfl

namespace Parameter

/-- Whatever stands between the parentheses of a signature, it is shown as one list of parameters,
and the list is read as a whole or not at all.  Exactly one way to cut it at its commas counts all
brackets around the pieces.  If the depth reaches zero or does not end at one, the whole text is the
only parameter.  Otherwise the texts of the pieces are the parameters, and there is a group for each
opening bracket. -/
theorem argument_lists_all_or_nothing (arguments : Text) :
    ∃ pieces : List Piece,
      (∀ others, List.Forall₂ Piece.Stands others (arguments.splitOn ',') ↔ others = pieces) ∧
      (parseList arguments = [.plain arguments] ↔
        ¬ Matched (pieces.flatMap Piece.brackets) ∨
          pieces = [⟨0, 0, arguments, 0, 0⟩] ∧ arguments ≠ []) ∧
      (Matched (pieces.flatMap Piece.brackets) →
        allTexts (parseList arguments) = (pieces.map Piece.text).filter (· ≠ []) ∧
        groupCountAll (parseList arguments) = (pieces.flatMap Piece.brackets).count '[') ∧
      ∀ (text : Text) (parts : SignatureParts), SignatureParts.ofDescription? text = some parts →
        parts.arguments = some arguments → arguments ≠ [] →
        ∀ (sort : DescriptionSort) (settings : DisplaySettings) (type : Text)
          (scopeClass : Option Text) (options : DescriptionOptions),
        ∃ signature, readSignature? sort settings type scopeClass options text = some signature ∧
          signature.parts.filterMap SignaturePart.parameters? = [parseList arguments] := by
  refine ⟨piecesOf arguments, fun others => forall₂_stands_iff, ?_, parseList_of_matched, ?_⟩
  · constructor
    · intro isPlain
      by_cases isMatched : Matched (bracketsOf (piecesOf arguments))
      · exact .inr (piecesOf_of_parseList isMatched isPlain)
      · exact .inl isMatched
    · rintro (notMatched | ⟨single, notEmpty⟩)
      · exact parseList_of_not_matched notMatched
      · have isMatched : Matched (bracketsOf (piecesOf arguments)) := by
          rw [single]
          exact (by decide : Matched [])
        obtain ⟨texts, groups⟩ := parseList_of_matched isMatched
        rw [single] at texts groups
        rw [eq_map_plain_of_groupCountAll groups, texts]
        simp [notEmpty]
  · intro text parts accepted hasArguments notEmpty
    exact filterMap_parameters?_readSignature? accepted hasArguments notEmpty

/-- Brackets that match, and brackets of which one is closed too early. -/
theorem argument_lists_all_or_nothing_brackets :
    (allTexts (parseList "x[, y], []") = (["x", "y"] : List Text) ∧
      groupCountAll (parseList "x[, y], []") = 2) ∧
    parseList "x], [y" = [.plain "x], [y"] ∧
    ∃ signature, readSignature? .moduleLevel {} "function" none ⟨none, none⟩ "f(x], [y)" =
        some signature ∧
      signature.parts.filterMap SignaturePart.parameters? = [[.plain "x], [y"]] := by
  have first : Piece.Stands ⟨0, 0, "x", 1, 0⟩ "x[" := ⟨"", "", "[", "", by decide⟩
  have second : Piece.Stands ⟨0, 0, "y", 0, 1⟩ " y]" := ⟨" ", "", "", "]", by decide⟩
  have third : Piece.Stands ⟨1, 1, "", 0, 0⟩ " []" := ⟨" [", "]", "", "", by decide⟩
  have early : Piece.Stands ⟨0, 0, "x", 0, 1⟩ "x]" := ⟨"", "", "", "]", by decide⟩
  have late : Piece.Stands ⟨1, 0, "y", 0, 0⟩ " [y" := ⟨" [", "", "", "", by decide⟩
  obtain ⟨pieces, isCut, _, whole, _⟩ := argument_lists_all_or_nothing "x[, y], []"
  have matching := (isCut [⟨0, 0, "x", 1, 0⟩, ⟨0, 0, "y", 0, 1⟩, ⟨1, 1, "", 0, 0⟩]).mp
    (.cons first (.cons second (.cons third .nil)))
  rw [← matching] at whole
  obtain ⟨others, isOtherCut, fallback, _, shown⟩ := argument_lists_all_or_nothing "x], [y"
  have crossing := (isOtherCut [⟨0, 0, "x", 0, 1⟩, ⟨1, 0, "y", 0, 0⟩]).mp
    (.cons early (.cons late .nil))
  rw [← crossing] at fallback
  have onePlain := fallback.mpr (.inl (by decide))
  have accepted : SignatureParts.ofDescription? "f(x], [y)" =
      some ⟨none, none, "f", some "x], [y", none⟩ := by decide +kernel
  have described := shown _ _ accepted rfl (by decide) .moduleLevel {} "function" none ⟨none, none⟩
  rw [onePlain] at described
  exact ⟨whole (by decide), onePlain, described⟩

end Parameter

end MatlabDocs
