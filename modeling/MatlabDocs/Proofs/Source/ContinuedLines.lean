import MatlabDocs.Proofs.Source.KeptParts

/-!
# What each line contributes to joined code

A line that goes on with an ellipsis, with no comment sign or quote in front of it, is joined with
the next line: it contributes what stands in front of the ellipsis, without a line end.  If there
are several such ellipses on the line, the last one counts, so the earlier ones stay in the code.
All other lines contribute themselves, apart from an ellipsis between quotes.
-/

namespace MatlabDocs

open List

/-- An ellipsis of a line that neither a comment sign nor a quote precedes. -/
structure IsOpenEllipsis (line front rest : Text) : Prop where
  split : line = front ++ ("..." ++ rest)
  plain : ∀ c ∈ front, isBarrier c = false

/-- What a line that ends in a line feed adds to the joined code. -/
def contribution (line : Text) : Text :=
  (beforeContinuation? (dropEllipsisInQuotes line)).getD (dropEllipsisInQuotes line ++ ['\n'])

section

variable {c : Char} {line front rest : Text}

theorem isOpenEllipsis_nil_iff : IsOpenEllipsis line [] rest ↔ line = "..." ++ rest :=
  ⟨fun isOpen => isOpen.split, fun split => ⟨split, by simp⟩⟩

theorem isOpenEllipsis_cons_iff {first : Char} :
    IsOpenEllipsis (c :: line) (first :: front) rest ↔
      first = c ∧ isBarrier c = false ∧ IsOpenEllipsis line front rest := by
  constructor
  · rintro ⟨split, plain⟩
    obtain ⟨rfl, tail⟩ := List.cons.inj split
    obtain ⟨notBarrier, others⟩ := forall_mem_cons.mp plain
    exact ⟨rfl, notBarrier, tail, others⟩
  · rintro ⟨rfl, notBarrier, split, plain⟩
    exact ⟨congrArg (first :: ·) split, forall_mem_cons.mpr ⟨notBarrier, plain⟩⟩

theorem startsWith_ellipsis_iff : Text.startsWith line "..." ↔ ∃ rest, line = "..." ++ rest := by
  rw [Text.startsWith, List.isPrefixOf_iff_prefix]
  exact exists_congr fun _ => eq_comm

theorem beforeContinuation?_cons (c : Char) (line : Text) :
    beforeContinuation? (c :: line) =
      (if isBarrier c then none else (beforeContinuation? line).map (c :: ·)).or
        (if Text.startsWith (c :: line) "..." then some [] else none) :=
  rfl

/-- A line is not continued exactly if it has no such ellipsis. -/
theorem beforeContinuation?_eq_none_iff :
    beforeContinuation? line = none ↔ ∀ front rest, ¬ IsOpenEllipsis line front rest := by
  induction line with
  | nil =>
    refine ⟨fun _ front rest isOpen => ?_, fun _ => rfl⟩
    have split := isOpen.split
    simp at split
  | cons c line ih =>
    rw [beforeContinuation?_cons, Option.or_eq_none_iff]
    constructor
    · rintro ⟨notLater, notHere⟩ front rest isOpen
      cases front with
      | nil =>
        have starts := startsWith_ellipsis_iff.mpr ⟨rest, isOpenEllipsis_nil_iff.mp isOpen⟩
        rw [if_pos starts] at notHere
        cases notHere
      | cons first front =>
        obtain ⟨_, notBarrier, later⟩ := isOpenEllipsis_cons_iff.mp isOpen
        have none : beforeContinuation? line = none := by
          simpa [notBarrier] using notLater
        exact ih.mp none front rest later
    · intro nowhere
      constructor
      · split
        · rfl
        · rename_i notBarrier
          rw [Option.map_eq_none_iff]
          refine ih.mpr fun front rest later => nowhere (c :: front) rest ?_
          exact isOpenEllipsis_cons_iff.mpr ⟨rfl, by simpa using notBarrier, later⟩
      · rw [if_neg]
        intro starts
        obtain ⟨rest, split⟩ := startsWith_ellipsis_iff.mp starts
        exact nowhere [] rest (isOpenEllipsis_nil_iff.mpr split)

/-- What is kept of a continued line ends at the last of these ellipses. -/
theorem exists_of_beforeContinuation?_eq_some (found : beforeContinuation? line = some front) :
    (∃ rest, IsOpenEllipsis line front rest) ∧
      ∀ other more, IsOpenEllipsis line other more → other.length ≤ front.length := by
  induction line generalizing front with
  | nil => cases found
  | cons c line ih =>
    rw [beforeContinuation?_cons, Option.or_eq_some_iff] at found
    rcases found with later | ⟨notLater, here⟩
    · split at later
      · cases later
      · rename_i notBarrier
        obtain ⟨kept, isKept, rfl⟩ := Option.map_eq_some_iff.mp later
        obtain ⟨⟨rest, isOpen⟩, longest⟩ := ih isKept
        refine ⟨⟨rest, isOpenEllipsis_cons_iff.mpr ⟨rfl, by simpa using notBarrier, isOpen⟩⟩, ?_⟩
        intro other more otherOpen
        cases other with
        | nil => exact Nat.zero_le _
        | cons first other =>
          obtain ⟨_, _, inLine⟩ := isOpenEllipsis_cons_iff.mp otherOpen
          exact Nat.succ_le_succ (longest other more inLine)
    · split at here
      · rename_i starts
        obtain rfl := Option.some.inj here
        obtain ⟨rest, split⟩ := startsWith_ellipsis_iff.mp starts
        refine ⟨⟨rest, isOpenEllipsis_nil_iff.mpr split⟩, ?_⟩
        intro other more otherOpen
        cases other with
        | nil => exact Nat.zero_le _
        | cons first other =>
          obtain ⟨_, notBarrier, inLine⟩ := isOpenEllipsis_cons_iff.mp otherOpen
          have none : beforeContinuation? line = none := by
            simpa [notBarrier] using notLater
          exact absurd inLine (beforeContinuation?_eq_none_iff.mp none other more)
      · cases here

theorem IsOpenEllipsis.eq_of_only {other more : Text} (isOpen : IsOpenEllipsis line front rest)
    (isFirst : ¬ ("..." : Text) <:+: front ++ "..") (isLast : ¬ ("..." : Text) <:+: ".." ++ rest)
    (otherOpen : IsOpenEllipsis line other more) : other = front := by
  have sameLine := otherOpen.split.symm.trans isOpen.split
  rcases append_eq_append_iff.mp sameLine with ⟨shift, isFront, isMore⟩ | ⟨shift, isOther, isRest⟩
  · cases shift with
    | nil => simpa using isFront.symm
    | cons c shift =>
      -- The other ellipsis ends in front of the last dot of this one.
      have early : ("..." : Text) <+: c :: shift ++ ".." := by
        refine prefix_of_prefix_length_le ⟨more, isMore⟩ ?_ (by simp)
        exact ⟨"." ++ rest, by simp⟩
      refine absurd ?_ isFirst
      rw [isFront, append_assoc]
      exact early.isInfix.trans (suffix_append other _).isInfix
  · cases shift with
    | nil => simpa using isOther
    | cons c shift =>
      have later : (".." : Text) ++ rest = shift ++ ("..." ++ more) := (List.cons.inj isRest).2
      refine absurd ?_ isLast
      rw [later]
      exact ⟨shift, more, by simp⟩

end

section

variable {line front rest : Text}

theorem IsOpenEllipsis.noQuote (isOpen : IsOpenEllipsis line front rest) :
    '\x27' ∉ front ++ ("..." : Text) := by
  intro member
  rcases mem_append.mp member with inFront | inDots
  · exact absurd (isOpen.plain _ inFront) (by decide)
  · exact absurd inDots (by decide)

/-- An ellipsis that goes on to the next line is not between quotes, so it is still there when an
ellipsis between quotes has been left out, and there are no others then. -/
theorem exists_isOpenEllipsis_dropEllipsisInQuotes_iff :
    (∃ rest, IsOpenEllipsis (dropEllipsisInQuotes line) front rest) ↔
      ∃ rest, IsOpenEllipsis line front rest := by
  constructor
  · rintro ⟨rest, isOpen⟩
    rcases dropEllipsisInQuotes_cases line with same | ⟨left, right, split, lost, quoted, _⟩
    · exact ⟨rest, same ▸ isOpen⟩
    · have joined := isOpen.split
      rw [lost, ← append_assoc] at joined
      rcases append_eq_append_iff.mp joined with ⟨more, isFront, _⟩ | ⟨more, isLeft, _⟩
      · refine absurd ?_ isOpen.noQuote
        rw [isFront]
        exact mem_append_left more quoted
      · refine ⟨more ++ ("..." ++ right), ?_, isOpen.plain⟩
        rw [split, isLeft]
        simp
  · rintro ⟨rest, isOpen⟩
    refine ⟨dropEllipsisInQuotes rest, ?_, isOpen.plain⟩
    rw [isOpen.split, ← append_assoc, dropEllipsisInQuotes_append isOpen.noQuote, append_assoc]

theorem dropEllipsisInQuotes_of_not_mem (plain : '\x27' ∉ line) :
    dropEllipsisInQuotes line = line := by
  have kept := dropEllipsisInQuotes_append plain []
  rwa [append_nil, show dropEllipsisInQuotes [] = [] from rfl, append_nil] at kept

end

section

variable {line front rest : Text}

theorem contribution_of_isOpenEllipsis (isOpen : IsOpenEllipsis line front rest)
    (isLast : ∀ other more, IsOpenEllipsis line other more → other.length ≤ front.length) :
    contribution line = front := by
  obtain ⟨more, stillOpen⟩ := exists_isOpenEllipsis_dropEllipsisInQuotes_iff.mpr ⟨rest, isOpen⟩
  cases found : beforeContinuation? (dropEllipsisInQuotes line) with
  | none => exact absurd stillOpen (beforeContinuation?_eq_none_iff.mp found front more)
  | some kept =>
    obtain ⟨keptOpen, longest⟩ := exists_of_beforeContinuation?_eq_some found
    obtain ⟨tail, inLine⟩ := exists_isOpenEllipsis_dropEllipsisInQuotes_iff.mp keptOpen
    have sameLength : kept.length = front.length :=
      Nat.le_antisymm (isLast kept tail inLine) (longest front more stillOpen)
    have sameLine := inLine.split.symm.trans isOpen.split
    rw [contribution, found]
    exact (List.append_inj sameLine sameLength).1

theorem contribution_of_not_isOpenEllipsis
    (nowhere : ∀ front rest, ¬ IsOpenEllipsis line front rest) :
    contribution line = dropEllipsisInQuotes line ++ ['\n'] := by
  have none : beforeContinuation? (dropEllipsisInQuotes line) = none := by
    refine beforeContinuation?_eq_none_iff.mpr fun front rest stillOpen => ?_
    obtain ⟨more, isOpen⟩ := exists_isOpenEllipsis_dropEllipsisInQuotes_iff.mp ⟨rest, stillOpen⟩
    exact nowhere front more isOpen
  rw [contribution, none]
  rfl

private theorem joinContinued_map_append (lines : List Text) (last : Text) :
    joinContinued ((lines ++ [last]).map dropEllipsisInQuotes) =
      lines.flatMap contribution ++ dropEllipsisInQuotes last := by
  induction lines with
  | nil => rfl
  | cons line lines ih =>
    obtain ⟨next, others, shape⟩ : ∃ next others, lines ++ [last] = next :: others :=
      exists_cons_of_ne_nil (append_ne_nil_of_right_ne_nil lines (cons_ne_nil _ _))
    rw [flatMap_cons, append_assoc, ← ih, cons_append, shape, map_cons,
      map_cons, joinContinued_cons_cons]
    rfl

/-- Joined code is what its lines contribute, one after another.  A line that goes on with an
ellipsis contributes what stands in front of it, without a line end, and the ellipsis is gone, if
there is only one such ellipsis on the line.  If there are several, the text goes up to the last.
A line without any contributes itself up to an ellipsis between quotes, and the last line, which
does not end in a line feed, is never continued. -/
theorem continued_lines_joined (code : Text) :
    (∃ lines last, code.splitOn '\n' = lines ++ [last] ∧
      joinContinuedLines code = lines.flatMap contribution ++ dropEllipsisInQuotes last) ∧
    ∀ line : Text,
      (∀ front rest, IsOpenEllipsis line front rest →
        (∀ other more, IsOpenEllipsis line other more → other = front) →
        contribution line = front ∧ ¬ ("..." : Text) <:+: contribution line) ∧
      (∀ front rest, IsOpenEllipsis line front rest →
        (∀ other more, IsOpenEllipsis line other more → other.length ≤ front.length) →
        contribution line = front) ∧
      ((∀ front rest, ¬ IsOpenEllipsis line front rest) →
        contribution line = dropEllipsisInQuotes line ++ ['\n']) ∧
      ('\x27' ∉ line → dropEllipsisInQuotes line = line) := by
  constructor
  · obtain ⟨first, others, shape⟩ := Text.exists_splitOn_eq_cons '\n' code
    have notEmpty : code.splitOn '\n' ≠ [] := by
      rw [shape]
      exact List.cons_ne_nil first others
    have split := List.dropLast_concat_getLast notEmpty
    refine ⟨_, _, split.symm, ?_⟩
    rw [← joinContinued_map_append, split, joinContinuedLines]
  intro line
  refine ⟨?_, fun front rest => contribution_of_isOpenEllipsis,
    contribution_of_not_isOpenEllipsis, dropEllipsisInQuotes_of_not_mem⟩
  intro front rest isOpen only
  have isFront : contribution line = front :=
    contribution_of_isOpenEllipsis isOpen fun other more otherOpen =>
      Nat.le_of_eq (congrArg List.length (only other more otherOpen))
  refine ⟨isFront, ?_⟩
  rw [isFront]
  rintro ⟨before, behind, inside⟩
  -- An ellipsis inside of the text would be another one on the line.
  have earlier : IsOpenEllipsis line before (behind ++ ("..." ++ rest)) := by
    refine ⟨?_, fun c member => isOpen.plain c ?_⟩
    · rw [isOpen.split, ← inside]
      simp
    · rw [← inside, List.append_assoc]
      exact List.mem_append_left _ member
  have length := congrArg List.length inside
  rw [only before _ earlier] at length
  simp at length

/-- A word behind an ellipsis, and an ellipsis in a comment. -/
theorem continued_lines_joined_call :
    contribution "f(a, ... one" = "f(a, " ∧ ¬ ("..." : Text) <:+: contribution "f(a, ... one" ∧
      contribution "b) % ..." = "b) % ...\n" ∧
      joinContinuedLines "f(a, ... one\nb) % ...\n" = "f(a, b) % ...\n" := by
  obtain ⟨⟨lines, last, isSplit, joined⟩, each⟩ :=
    continued_lines_joined "f(a, ... one\nb) % ...\n"
  have split : Text.splitOn '\n' "f(a, ... one\nb) % ...\n" =
      [("f(a, ... one" : Text), ("b) % ..." : Text)] ++ [[]] := by decide
  obtain ⟨rfl, sameLast⟩ := List.append_inj' (isSplit.symm.trans split) rfl
  obtain rfl := (List.cons.inj sameLast).1
  have isOpen : IsOpenEllipsis "f(a, ... one" "f(a, " " one" :=
    ⟨rfl, by simp [isBarrier]⟩
  obtain ⟨only, _, _, _⟩ := each "f(a, ... one"
  obtain ⟨first, gone⟩ := only _ _ isOpen fun other more =>
    isOpen.eq_of_only (by decide) (by decide)
  obtain ⟨_, _, uncontinued, unquoted⟩ := each "b) % ..."
  have second := uncontinued (beforeContinuation?_eq_none_iff.mp (by decide))
  rw [unquoted (by decide)] at second
  refine ⟨first, gone, second, ?_⟩
  rw [joined, List.flatMap_cons, List.flatMap_cons, first, second]
  rfl

/-- Behind the first ellipsis of a line the code is a comment, but it is kept up to the last one. -/
theorem earlier_ellipsis_kept :
    IsOpenEllipsis "x = 1 ... one ... two" "x = 1 " " one ... two" ∧
      joinContinuedLines "x = 1 ... one ... two\n+ 2\n" = "x = 1 ... one + 2\n" := by
  exact ⟨⟨rfl, by simp [isBarrier]⟩, by decide⟩

end

end MatlabDocs
