import MatlabDocs.Text.Basic

/-!
# Pieces of text

Text that is joined from pieces falls into the same pieces again, as long as the separator
is in none of them.  Characters that are taken off the ends of a text are only those at the
ends.
-/

namespace MatlabDocs

open List

section

variable {α : Type} {test : α → Bool} {passed rest : List α} {stop : α}

theorem forall_mem_empty (test : α → Bool) : ∀ item ∈ ([] : List α), test item :=
  forall_mem_nil _

theorem ne_of_test {item other : α} (passes : test item) (fails : test other = false) :
    item ≠ other := by
  rintro rfl
  simp [passes] at fails

section

variable (passes : ∀ item ∈ passed, test item)
include passes

theorem takeWhile_append_cons (stops : test stop = false) :
    (passed ++ stop :: rest).takeWhile test = passed := by
  rw [takeWhile_append_of_pos passes, takeWhile_cons_of_neg (by simp [stops]), append_nil]

theorem dropWhile_append_cons (stops : test stop = false) :
    (passed ++ stop :: rest).dropWhile test = stop :: rest := by
  rw [dropWhile_append_of_pos passes, dropWhile_cons_of_neg (by simp [stops])]

theorem takeWhile_append_of_head? (stops : ∀ item ∈ rest.head?, test item = false) :
    (passed ++ rest).takeWhile test = passed := by
  cases rest with
  | nil => rw [takeWhile_append_of_pos passes, takeWhile_nil, append_nil]
  | cons stop rest => exact takeWhile_append_cons passes (stops stop rfl)

theorem dropWhile_append_of_head? (stops : ∀ item ∈ rest.head?, test item = false) :
    (passed ++ rest).dropWhile test = rest := by
  cases rest with
  | nil => rw [dropWhile_append_of_pos passes, dropWhile_nil]
  | cons stop rest => exact dropWhile_append_cons passes (stops stop rfl)

theorem append_cons_inj {other more : List α} {last : α} (stops : test stop = false)
    (otherPasses : ∀ item ∈ other, test item) (otherStops : test last = false)
    (same : passed ++ stop :: rest = other ++ last :: more) :
    passed = other ∧ stop = last ∧ rest = more := by
  have runs := congrArg (List.takeWhile test) same
  have ends := congrArg (List.dropWhile test) same
  rw [takeWhile_append_cons passes stops, takeWhile_append_cons otherPasses otherStops] at runs
  rw [dropWhile_append_cons passes stops, dropWhile_append_cons otherPasses otherStops] at ends
  exact ⟨runs, List.cons.inj ends⟩

end

theorem drop_length_takeWhile (test : α → Bool) (items : List α) :
    items.drop (items.takeWhile test).length = items.dropWhile test := by
  have split := @takeWhile_append_dropWhile _ test items
  calc
    items.drop (items.takeWhile test).length =
        (items.takeWhile test ++ items.dropWhile test).drop (items.takeWhile test).length := by
      rw [split]
    _ = items.dropWhile test := drop_left

theorem dropWhile_append_stop (stops : test stop = false) (front rest : List α) :
    (front ++ stop :: rest).dropWhile test = front.dropWhile test ++ stop :: rest := by
  induction front with
  | nil => exact dropWhile_cons_of_neg (by simp [stops])
  | cons item front ih =>
    by_cases passes : test item
    · rw [cons_append, dropWhile_cons_of_pos passes, ih, dropWhile_cons_of_pos passes]
    · rw [cons_append, dropWhile_cons_of_neg passes, dropWhile_cons_of_neg passes, cons_append]

theorem takeWhile_append_stop (stops : test stop = false) (front rest : List α) :
    (front ++ stop :: rest).takeWhile test = front.takeWhile test := by
  induction front with
  | nil => exact takeWhile_cons_of_neg (by simp [stops])
  | cons item front ih =>
    by_cases passes : test item
    · rw [cons_append, takeWhile_cons_of_pos passes, ih, takeWhile_cons_of_pos passes]
    · rw [cons_append, takeWhile_cons_of_neg passes, takeWhile_cons_of_neg passes]

theorem isPrefixOf_append_stop [BEq α] [LawfulBEq α] {start : List α} (absent : stop ∉ start)
    (front rest : List α) :
    start.isPrefixOf (front ++ stop :: rest) = start.isPrefixOf front := by
  induction start generalizing front with
  | nil => simp
  | cons item start ih =>
    obtain ⟨different, others⟩ := ne_and_not_mem_of_not_mem_cons absent
    cases front with
    | nil => simp [List.isPrefixOf, different.symm]
    | cons first front => simp [List.isPrefixOf, ih others]

end

namespace Text

variable {separator : Char} {text : Text} {drop : Char → Bool}

variable {c : Char} {first : Text} {piece : Text} {blanks : Text}

theorem splitOn_of_not_mem (plain : separator ∉ piece) : splitOn separator piece = [piece] := by
  induction piece with
  | nil => rfl
  | cons c piece ih =>
    have different : c ≠ separator := fun same => plain (by simp [same])
    have rest : separator ∉ piece := fun member => plain (by simp [member])
    simp [splitOn, different, ih rest]

theorem strip_cons (blank : isBlank c) (text : Text) : strip (c :: text) = strip text := by
  simp [strip, trim, blank]

theorem exists_splitOn_eq_cons (separator : Char) (text : Text) :
    ∃ piece pieces, splitOn separator text = piece :: pieces := by
  cases text with
  | nil => exact ⟨[], [], rfl⟩
  | cons c text =>
    by_cases same : c = separator
    · exact ⟨[], splitOn separator text, by simp [splitOn, same]⟩
    · cases more : splitOn separator text with
      | nil => exact ⟨[c], [], by simp [splitOn, same, more]⟩
      | cons piece pieces => exact ⟨c :: piece, pieces, by simp [splitOn, same, more]⟩

theorem splitOn_append_separator (separator : Char) (front rest : Text) :
    splitOn separator (front ++ separator :: rest) =
      splitOn separator front ++ splitOn separator rest := by
  induction front with
  | nil => simp [splitOn]
  | cons c front ih =>
    by_cases same : c = separator
    · simp [splitOn, same, ih]
    · obtain ⟨piece, pieces, split⟩ := exists_splitOn_eq_cons separator front
      simp [splitOn, same, ih, split]

theorem splitOn_append_cons (plain : separator ∉ piece) (rest : Text) :
    splitOn separator (piece ++ separator :: rest) = piece :: splitOn separator rest := by
  rw [splitOn_append_separator, splitOn_of_not_mem plain, singleton_append]

theorem exists_splitOn_append {ending : Text} (plain : separator ∉ ending) (text : Text) :
    ∃ pieces last, splitOn separator text = pieces ++ [last] ∧
      splitOn separator (text ++ ending) = pieces ++ [last ++ ending] := by
  induction text with
  | nil => exact ⟨[], [], rfl, splitOn_of_not_mem plain⟩
  | cons c text ih =>
    obtain ⟨pieces, last, isSplit, isLonger⟩ := ih
    rw [cons_append, splitOn, splitOn, isSplit, isLonger]
    split
    · exact ⟨[] :: pieces, last, rfl, rfl⟩
    · cases pieces with
      | nil => exact ⟨[], c :: last, rfl, rfl⟩
      | cons piece pieces => exact ⟨(c :: piece) :: pieces, last, rfl, rfl⟩

theorem splitOn_append_of_not_mem {front piece : Text} {pieces : List Text}
    (plain : separator ∉ front) (isSplit : splitOn separator text = piece :: pieces) :
    splitOn separator (front ++ text) = (front ++ piece) :: pieces := by
  induction front with
  | nil => exact isSplit
  | cons c front ih =>
    have different : c ≠ separator := fun same => plain (same ▸ mem_cons_self)
    rw [cons_append, splitOn, if_neg different,
      ih fun member => plain (mem_cons_of_mem c member), cons_append]

theorem not_mem_of_mem_splitOn : ∀ piece ∈ splitOn separator text, separator ∉ piece := by
  induction text with
  | nil => simp [splitOn]
  | cons c text ih =>
    rw [splitOn]
    split
    · exact forall_mem_cons.mpr ⟨not_mem_nil, ih⟩
    · rename_i different
      obtain ⟨piece, pieces, split⟩ := exists_splitOn_eq_cons separator text
      rw [split] at ih ⊢
      obtain ⟨plain, others⟩ := forall_mem_cons.mp ih
      refine forall_mem_cons.mpr ⟨?_, others⟩
      exact not_mem_cons_of_ne_of_not_mem (fun same => different same.symm) plain

theorem map_strip_splitOn_cons (blank : isBlank c) (different : c ≠ separator) (text : Text) :
    (splitOn separator (c :: text)).map strip = (splitOn separator text).map strip := by
  obtain ⟨piece, pieces, split⟩ := exists_splitOn_eq_cons separator text
  simp [splitOn, different, split, strip_cons blank]

theorem joinWith_cons_cons (separator piece next : Text) (pieces : List Text) :
    joinWith separator (piece :: next :: pieces) =
      piece ++ separator ++ joinWith separator (next :: pieces) := by
  simp [joinWith, List.intercalate]

theorem joinWith_singleton (separator piece : Text) : joinWith separator [piece] = piece := by
  simp [joinWith, List.intercalate]

theorem joinWith_append (separator first next : Text) (before after : List Text) :
    joinWith separator (first :: before ++ next :: after) =
      joinWith separator (first :: before) ++ separator ++ joinWith separator (next :: after) := by
  induction before generalizing first with
  | nil => rw [singleton_append, joinWith_cons_cons, joinWith_singleton]
  | cons second before ih =>
    rw [joinWith_cons_cons, cons_append, cons_append, joinWith_cons_cons, ← cons_append, ih]
    simp

/-- Pieces without the separator that are joined by it fall apart again. -/
theorem splitOn_joinWith {pieces : List Text}
    (plain : ∀ piece ∈ first :: pieces, separator ∉ piece) :
    splitOn separator (joinWith [separator] (first :: pieces)) = first :: pieces := by
  induction pieces generalizing first with
  | nil =>
    rw [joinWith_singleton]
    exact splitOn_of_not_mem (plain first mem_cons_self)
  | cons next pieces ih =>
    obtain ⟨plainFirst, others⟩ := forall_mem_cons.mp plain
    rw [joinWith_cons_cons, append_assoc, singleton_append,
      splitOn_append_cons plainFirst, ih others]

theorem joinWith_append_singleton (separator : Text) (pieces : List Text) (last : Text) :
    joinWith separator (pieces ++ [last]) = pieces.flatMap (· ++ separator) ++ last := by
  induction pieces with
  | nil => exact joinWith_singleton separator last
  | cons piece pieces ih =>
    obtain ⟨next, others, shape⟩ := exists_cons_of_ne_nil
      (append_ne_nil_of_right_ne_nil pieces (cons_ne_nil last []))
    rw [cons_append, shape, joinWith_cons_cons, ← shape, ih, flatMap_cons]
    simp

theorem map_strip_splitOn_joinWith {names : List Text} (plain : ∀ name ∈ first :: names, ',' ∉ name)
    (stripped : ∀ name ∈ first :: names, name.strip = name) :
    (splitOn ',' (joinWith ", " (first :: names))).map strip = first :: names := by
  induction names generalizing first with
  | nil =>
    rw [joinWith_singleton, splitOn_of_not_mem (plain first (by simp))]
    simp [stripped first (by simp)]
  | cons next names ih =>
    have later := @ih next (fun name member => plain name (mem_cons_of_mem _ member))
      (fun name member => stripped name (mem_cons_of_mem _ member))
    have split : joinWith ", " (first :: next :: names) =
        first ++ ',' :: ' ' :: joinWith ", " (next :: names) := by
      simp [joinWith_cons_cons]
    rw [split, splitOn_append_cons (plain first (by simp)), map_cons,
      map_strip_splitOn_cons (by decide) (by decide), later, stripped first (by simp)]

theorem trimRight_append {ending : Text} (dropped : ∀ c ∈ ending, drop c) :
    trimRight drop (text ++ ending) = trimRight drop text := by
  have reversed : ∀ c ∈ ending.reverse, drop c := by simpa using dropped
  rw [trimRight, reverse_append, dropWhile_append_of_pos reversed, trimRight]

theorem trimRight_append_of_ne_nil {ending : Text} (kept : trimRight drop ending ≠ []) :
    trimRight drop (text ++ ending) = text ++ trimRight drop ending := by
  have notAll : (ending.reverse.dropWhile drop).isEmpty = false := by
    rw [Bool.eq_false_iff]
    intro empty
    exact kept (by simp [trimRight, List.isEmpty_iff.mp empty])
  rw [trimRight, reverse_append, dropWhile_append, notAll]
  simp [trimRight]

theorem trimRight_of_getLast? (kept : ∀ c ∈ text.getLast?, drop c = false) :
    trimRight drop text = text := by
  cases reversed : text.reverse with
  | nil => simp [reverse_eq_nil_iff.mp reversed, trimRight]
  | cons last others =>
    have isLast : drop last = false :=
      kept last (by rw [← head?_reverse, reversed]; simp)
    rw [trimRight, reversed, dropWhile_cons_of_neg (by simp [isLast]), ← reversed, reverse_reverse]

theorem exists_trimRight_append (drop : Char → Bool) (text : Text) :
    ∃ back, text = trimRight drop text ++ back ∧ ∀ c ∈ back, drop c := by
  refine ⟨(text.reverse.takeWhile drop).reverse, ?_, ?_⟩
  · rw [trimRight, ← reverse_append, takeWhile_append_dropWhile, reverse_reverse]
  · intro c member
    exact all_eq_true.mp all_takeWhile c (mem_reverse.mp member)

/-- A text whose end is to be kept stays in front of what is trimmed. -/
theorem trimRight_append_of_getLast? {front : Text} (kept : ∀ c ∈ front.getLast?, drop c = false)
    (rest : Text) : trimRight drop (front ++ rest) = front ++ trimRight drop rest := by
  by_cases empty : trimRight drop rest = []
  · obtain ⟨back, split, dropped⟩ := exists_trimRight_append drop rest
    rw [empty, nil_append] at split
    rw [empty, append_nil, split, trimRight_append dropped, trimRight_of_getLast? kept]
  · exact trimRight_append_of_ne_nil empty

theorem trim_of_ends (front : ∀ c ∈ text.head?, drop c = false)
    (back : ∀ c ∈ text.getLast?, drop c = false) : trim drop text = text := by
  have kept : text.dropWhile drop = text := by
    cases text with
    | nil => rfl
    | cons c text => rw [dropWhile_cons_of_neg (by simp [front c (by simp)])]
  rw [trim, kept, trimRight_of_getLast? back]

/-- Only the characters around a text are taken off, as long as its ends are to be kept. -/
theorem trim_append {front back : Text} (droppedFront : ∀ c ∈ front, drop c)
    (droppedBack : ∀ c ∈ back, drop c) (notEmpty : text ≠ [])
    (keptFront : ∀ c ∈ text.head?, drop c = false)
    (keptBack : ∀ c ∈ text.getLast?, drop c = false) :
    trim drop (front ++ (text ++ back)) = text := by
  obtain ⟨first, rest, rfl⟩ := exists_cons_of_ne_nil notEmpty
  rw [trim, dropWhile_append_of_pos droppedFront, cons_append,
    dropWhile_cons_of_neg (by simp [keptFront first (by simp)]), ← cons_append,
    trimRight_append droppedBack, trimRight_of_getLast? keptBack]

theorem getLast?_trimRight (drop : Char → Bool) (text : Text) :
    ∀ c ∈ (trimRight drop text).getLast?, drop c = false := by
  intro c member
  rw [trimRight, getLast?_reverse] at member
  have kept := head?_dropWhile_not drop text.reverse
  rw [Option.mem_def.mp member] at kept
  simpa using kept

theorem exists_append_trim_append (drop : Char → Bool) (text : Text) :
    ∃ front back, text = front ++ trim drop text ++ back ∧ (∀ c ∈ front ++ back, drop c) ∧
      (∀ c ∈ (trim drop text).head?, drop c = false) ∧
      (∀ c ∈ (trim drop text).getLast?, drop c = false) := by
  obtain ⟨back, split, droppedBack⟩ := exists_trimRight_append drop (text.dropWhile drop)
  refine ⟨text.takeWhile drop, back, ?_, ?_, ?_, getLast?_trimRight drop _⟩
  · rw [trim, append_assoc, ← split, takeWhile_append_dropWhile]
  · refine forall_mem_append.mpr ⟨?_, droppedBack⟩
    exact all_eq_true.mp all_takeWhile
  · intro c member
    have kept := head?_dropWhile_not drop text
    rw [trim] at member
    rw [split] at kept
    cases trimmed : trimRight drop (text.dropWhile drop) with
    | nil => simp [trimmed] at member
    | cons first rest =>
      rw [trimmed] at member kept
      obtain rfl : first = c := by simpa using member
      simpa using kept

theorem strip_append_of_blank (blank : ∀ c ∈ blanks, isBlank c) (text : Text) :
    strip (blanks ++ text) = strip text := by
  rw [strip, trim, dropWhile_append_of_pos blank, strip, trim]

theorem strip_append_of_blank_right (blank : ∀ c ∈ blanks, isBlank c)
    (text : Text) : strip (text ++ blanks) = strip text := by
  obtain ⟨front, back, split, dropped, frontKept, backKept⟩ :=
    exists_append_trim_append isBlank text
  obtain ⟨droppedFront, droppedBack⟩ := forall_mem_append.mp dropped
  have droppedMore : ∀ c ∈ back ++ blanks, isBlank c :=
    forall_mem_append.mpr ⟨droppedBack, blank⟩
  by_cases empty : trim isBlank text = []
  · have nothing : ∀ c ∈ text ++ blanks, isBlank c := by
      rw [split, empty, append_nil]
      exact forall_mem_append.mpr ⟨dropped, blank⟩
    have whole := strip_append_of_blank nothing []
    rw [append_nil] at whole
    rw [whole]
    exact empty.symm
  · have regrouped : text ++ blanks = front ++ (trim isBlank text ++ (back ++ blanks)) :=
      (congrArg (· ++ blanks) split).trans (by simp)
    rw [regrouped]
    exact trim_append droppedFront droppedMore empty frontKept backKept

theorem afterStart?_append (start rest : Text) : afterStart? start (start ++ rest) = some rest := by
  simp [afterStart?]

end Text

end MatlabDocs
