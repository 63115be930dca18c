import MatlabDocs.Proofs.Source.CommentedRest

/-!
# Comments and quoted text in prepared code

From its first comment sign or quote on, a line is never taken for a continued one or for a part
of a signature.  So the lines of the code can be prepared up to there and from there on, and the
only loss is an ellipsis between two quotes.
-/

namespace MatlabDocs

open List

def isBarrier (c : Char) : Bool :=
  c == '%' || c == '\x27' || c == '"'

/-- A class of characters without the three signs has none of them. -/
theorem test_of_isBarrier {test : Char → Bool} {sign : Char} (barrier : isBarrier sign)
    (fails : ['%', '\x27', '"'].any test = false) : test sign = false := by
  rw [any_eq_false] at fails
  simp only [isBarrier, Bool.or_eq_true, beq_iff_eq, or_assoc] at barrier
  apply Bool.eq_false_iff.mpr
  apply fails
  simpa using barrier

section

variable {sign : Char} (rest : Text)

theorem skipOne_append_stop {expected : Char} (different : sign ≠ expected) (front : Text) :
    skipOne expected (front ++ sign :: rest) = skipOne expected front ++ sign :: rest := by
  cases front with
  | nil => simp [skipOne, different]
  | cons c front =>
    rw [cons_append, skipOne, skipOne]
    split
    · rfl
    · rfl

theorem Text.afterStart?_append_stop {start : Text} (absent : sign ∉ start) (front : Text) :
    afterStart? start (front ++ sign :: rest) =
      (afterStart? start front).map (· ++ sign :: rest) := by
  rw [afterStart?, afterStart?, isPrefixOf_append_stop absent]
  split
  · rename_i starts
    have fits : start.length ≤ front.length :=
      (List.isPrefixOf_iff_prefix.mp starts).length_le
    rw [drop_append_of_le_length fits, Option.map_some]
  · rfl

/-- What follows the equals sign of a signature with outputs. -/
def behindEquals? (text : Text) : Option Text :=
  (Text.afterStart? "function" (text.dropWhile isIndent)).bind fun afterKeyword =>
    Text.afterStart? ['='] ((skipOne ']' ((skipOne '[' (afterKeyword.dropWhile isGap)).dropWhile
      isListed)).dropWhile isGap)

/-- A signature, from its equals sign on. -/
def namedSignature? (afterEquals : Text) : Option AssignedSignature :=
  let name := (afterEquals.dropWhile isGap).takeWhile isWord
  let fromArguments :=
    skipOne '(' (((afterEquals.dropWhile isGap).dropWhile isWord).dropWhile isGap)
  if name = [] then none
  else
    some ⟨name, fromArguments.takeWhile isListed, skipOne ')' (fromArguments.dropWhile isListed)⟩

theorem assignedSignature?_eq_bind (text : Text) :
    assignedSignature? text = (behindEquals? text).bind namedSignature? := by
  rw [assignedSignature?, behindEquals?]
  cases Text.afterStart? "function" (text.dropWhile isIndent) with
  | none => rfl
  | some afterKeyword =>
    simp only [bind, Option.bind_some, drop_length_takeWhile]
    cases List.dropWhile isGap (skipOne ']' (List.dropWhile isListed
        (skipOne '[' (List.dropWhile isGap afterKeyword)))) with
    | nil => rfl
    | cons c afterEquals =>
      by_cases equals : c = '='
      · subst equals
        rfl
      · have noEquals : Text.afterStart? ['='] (c :: afterEquals) = none := by
          simp [Text.afterStart?, List.isPrefixOf, Ne.symm equals]
        rw [noEquals]
        split
        · rename_i same
          exact absurd (List.cons.inj same).1 equals
        · rfl

section

variable (barrier : isBarrier sign)
include barrier

theorem barrier_ne_of_mem : ∀ expected ∈ ("function[]=()" : Text), sign ≠ expected := by
  have noSign := @test_of_isBarrier ("function[]=()" : Text).contains _ barrier (by decide)
  intro expected listed same
  rw [same] at noSign
  exact absurd (contains_iff_mem.mpr listed) (by rw [noSign]; simp)

theorem behindEquals?_append_barrier (front : Text) :
    behindEquals? (front ++ sign :: rest) = (behindEquals? front).map (· ++ sign :: rest) := by
  have notIndent : isIndent sign = false := test_of_isBarrier barrier (by decide)
  have notGap : isGap sign = false := test_of_isBarrier barrier (by decide)
  have notListed : isListed sign = false := test_of_isBarrier barrier (by decide)
  have different := barrier_ne_of_mem barrier
  have notKeyword : sign ∉ ("function" : Text) :=
    fun member => different sign (mem_append_left ("[]=()" : Text) member) rfl
  have notEquals : sign ∉ ['='] := by
    simpa using different '=' (by simp)
  rw [behindEquals?, behindEquals?, dropWhile_append_stop notIndent,
    Text.afterStart?_append_stop rest notKeyword]
  cases Text.afterStart? "function" (front.dropWhile isIndent) with
  | none => rfl
  | some afterKeyword =>
    rw [Option.map_some, Option.bind_some, Option.bind_some, dropWhile_append_stop notGap,
      skipOne_append_stop rest (different '[' (by simp)), dropWhile_append_stop notListed,
      skipOne_append_stop rest (different ']' (by simp)), dropWhile_append_stop notGap,
      Text.afterStart?_append_stop rest notEquals]

private theorem namedSignature?_append_barrier (front : Text) :
    namedSignature? (front ++ sign :: rest) = (namedSignature? front).map fun signature =>
      { signature with rest := signature.rest ++ sign :: rest } := by
  have notGap : isGap sign = false := test_of_isBarrier barrier (by decide)
  have notListed : isListed sign = false := test_of_isBarrier barrier (by decide)
  have notWord : isWord sign = false := test_of_isBarrier barrier (by decide)
  have different := barrier_ne_of_mem barrier
  simp only [namedSignature?, dropWhile_append_stop notGap, dropWhile_append_stop notWord,
    dropWhile_append_stop notListed, takeWhile_append_stop notWord,
    takeWhile_append_stop notListed, skipOne_append_stop rest (different '(' (by simp)),
    skipOne_append_stop rest (different ')' (by simp))]
  split
  · rfl
  · rfl

/-- A signature is found, or not, whatever comes behind the first barrier. -/
private theorem assignedSignature?_append_barrier (front : Text) :
    assignedSignature? (front ++ sign :: rest) =
      (assignedSignature? front).map fun signature =>
        { signature with rest := signature.rest ++ sign :: rest } := by
  rw [assignedSignature?_eq_bind, assignedSignature?_eq_bind,
    behindEquals?_append_barrier rest barrier]
  cases behindEquals? front with
  | none => rfl
  | some afterEquals => exact namedSignature?_append_barrier rest barrier afterEquals

/-- No parentheses are put in across a barrier. -/
theorem parenthesizeFrom_append_barrier (lineStart : Bool) (front : Text) :
    parenthesizeFrom lineStart (front ++ sign :: rest) =
      parenthesizeFrom lineStart front ++ sign :: parenthesizeFrom false rest := by
  fun_induction parenthesizeFrom lineStart front with
  | case1 lineStart =>
    have notLineFeed : (sign == '\n') = false :=
      @test_of_isBarrier (· == '\n') _ barrier (by decide)
    have noKeyword : assignedSignature? (sign :: rest) = none :=
      assignedSignature?_append_barrier rest barrier []
    rw [nil_append, parenthesizeFrom_cons fun _ => noKeyword, notLineFeed, nil_append]
  | case2 lineStart c front signature found matched ih =>
    -- The signature ends in front of the barrier, so the same text is matched.
    have extended :
        (if lineStart then assignedSignature? (c :: (front ++ sign :: rest)) else none) =
          some { signature with rest := signature.rest ++ sign :: rest } := by
      cases lineStart with
      | false => cases found
      | true =>
        rw [dif_pos rfl] at found
        rw [if_pos rfl, ← cons_append, assignedSignature?_append_barrier rest barrier, found]
        rfl
    have length : (front ++ sign :: rest).length + 1 - (signature.rest ++ sign :: rest).length =
        front.length + 1 - signature.rest.length := by
      simp only [length_append]
      omega
    have taken : (c :: (front ++ sign :: rest)).take (front.length + 1 - signature.rest.length) =
        matched := by
      rw [← cons_append]
      apply take_append_of_le_length
      simp
    have fits : matched.length - 1 ≤ front.length := by
      simp only [matched, length_take, length_cons]
      omega
    rw [cons_append, parenthesizeFrom, extended]
    simp only [length, taken]
    rw [drop_append_of_le_length fits, ih, append_assoc]
    rfl
  | case3 lineStart c front noSignature ih =>
    have none : lineStart = true → assignedSignature? (c :: (front ++ sign :: rest)) = none := by
      intro atStart
      rw [dif_pos atStart] at noSignature
      rw [← cons_append, assignedSignature?_append_barrier rest barrier, noSignature]
      rfl
    rw [cons_append, parenthesizeFrom_cons none, ih, cons_append]

end

end

section

variable {sign : Char} {front : Text}

/-- A line is not continued if there is no ellipsis in front of its first barrier. -/
theorem beforeContinuation?_barrier (barrier : isBarrier sign)
    (plain : ∀ c ∈ front, isBarrier c = false) (notContinued : ¬ ("..." : Text) <:+: front)
    (rest : Text) : beforeContinuation? (front ++ sign :: rest) = none := by
  induction front with
  | nil =>
    have notDot : sign ≠ '.' := by
      rintro rfl
      exact absurd barrier (by decide)
    have isSign : (sign == '%' || sign == '\x27' || sign == '"') = true := barrier
    rw [nil_append, beforeContinuation?]
    simp only [isSign, startsWith_ellipsis_cons notDot, if_true, Bool.false_eq_true, if_false,
      Option.or_none]
  | cons c front ih =>
    obtain ⟨notBarrier, others⟩ := forall_mem_cons.mp plain
    have noDots : sign ∉ ("..." : Text) := by
      have noDot := @test_of_isBarrier (· == '.') _ barrier (by decide)
      intro member
      have isDot : sign = '.' := by simpa using member
      simp [isDot] at noDot
    have noEllipsis : Text.startsWith (c :: (front ++ sign :: rest)) "..." = false := by
      rw [Text.startsWith, ← cons_append, isPrefixOf_append_stop noDots, Bool.eq_false_iff]
      intro starts
      exact notContinued (List.isPrefixOf_iff_prefix.mp starts).isInfix
    have later := ih others fun inside =>
      notContinued (inside.trans (suffix_cons c front).isInfix)
    have isNone : (c == '%' || c == '\x27' || c == '"') = false := notBarrier
    rw [cons_append, beforeContinuation?]
    simp only [isNone, noEllipsis, later, Bool.false_eq_true, if_false, Option.map_none,
      Option.or_none]

theorem joinContinued_cons_append (first : Text) (earlier : List Text) (line : Text)
    (later : List Text) :
    joinContinued (first :: (earlier ++ line :: later)) =
      (beforeContinuation? first).getD (first ++ ['\n']) ++
        joinContinued (earlier ++ line :: later) := by
  cases earlier with
  | nil => rfl
  | cons next earlier => rfl

theorem joinContinued_append_cons {line : Text} (notContinued : beforeContinuation? line = none)
    (earlier later : List Text) :
    joinContinued (earlier ++ line :: later) =
      joinContinued (earlier ++ [[]]) ++ (line ++ joinContinued ([] :: later)) := by
  induction earlier with
  | nil =>
    cases later with
    | nil => simp [joinContinued]
    | cons next later =>
      rw [nil_append, joinContinued_cons_cons, joinContinued_cons_cons, notContinued]
      simp [joinContinued, beforeContinuation?]
  | cons first earlier ih =>
    rw [cons_append, cons_append, joinContinued_cons_append,
      joinContinued_cons_append, ih, append_assoc]

theorem joinContinued_append_singleton (earlier : List Text) (last : Text) :
    joinContinued (earlier ++ [last]) = joinContinued (earlier ++ [[]]) ++ last := by
  induction earlier with
  | nil => rfl
  | cons first earlier ih =>
    rw [cons_append, cons_append, joinContinued_cons_append,
      joinContinued_cons_append, ih, append_assoc]

end

theorem dropQuotedEllipsis?_eq_some {text shorter : Text}
    (dropped : dropQuotedEllipsis? text = some shorter) :
    ∃ left right, text = left ++ ("..." ++ right) ∧ shorter = left ++ right ∧ '\x27' ∈ right := by
  induction text generalizing shorter with
  | nil => cases dropped
  | cons c text ih =>
    rw [dropQuotedEllipsis?] at dropped
    cases later : dropQuotedEllipsis? text with
    | some other =>
      rw [later] at dropped
      obtain rfl := Option.some.inj dropped
      obtain ⟨left, right, rfl, rfl, quoted⟩ := ih later
      exact ⟨c :: left, right, rfl, rfl, quoted⟩
    | none =>
      rw [later] at dropped
      dsimp only at dropped
      split at dropped
      · rename_i both
        obtain ⟨starts, quoted⟩ := Bool.and_eq_true_iff.mp both
        obtain ⟨right, shape⟩ := List.isPrefixOf_iff_prefix.mp starts
        obtain rfl := Option.some.inj dropped
        have tail : text = '.' :: '.' :: right := (List.cons.inj shape).2.symm
        rw [tail] at quoted ⊢
        exact ⟨[], right, by rw [← tail, ← shape]; rfl, rfl, by simpa using quoted⟩
      · cases dropped

theorem dropQuotedEllipsis?_last {right : Text} (quoted : '\x27' ∈ right)
    (isLast : dropQuotedEllipsis? (".." ++ right) = none) (left : Text) :
    dropQuotedEllipsis? (left ++ ("..." ++ right)) = some (left ++ right) := by
  induction left with
  | nil =>
    have dots : dropQuotedEllipsis? ('.' :: '.' :: right) = none := isLast
    have starts : Text.startsWith ('.' :: '.' :: '.' :: right) "..." = true := rfl
    show dropQuotedEllipsis? ('.' :: '.' :: '.' :: right) = some right
    rw [dropQuotedEllipsis?, dots, starts]
    simp [quoted]
  | cons c left ih =>
    rw [cons_append, dropQuotedEllipsis?, ih]
    rfl

theorem dropEllipsisInQuotes_append {front : Text} (plain : '\x27' ∉ front) (rest : Text) :
    dropEllipsisInQuotes (front ++ rest) = front ++ dropEllipsisInQuotes rest := by
  induction front with
  | nil => rfl
  | cons c front ih =>
    obtain ⟨notQuote, others⟩ := ne_and_not_mem_of_not_mem_cons plain
    rw [cons_append, dropEllipsisInQuotes_cons notQuote.symm, ih others, cons_append]

theorem dropEllipsisInQuotes_quote (rest : Text) :
    dropEllipsisInQuotes ('\x27' :: rest) = '\x27' :: (dropQuotedEllipsis? rest).getD rest :=
  rfl

/-- A line loses nothing, or an ellipsis with a quote on both sides. -/
theorem dropEllipsisInQuotes_cases (line : Text) :
    dropEllipsisInQuotes line = line ∨
    ∃ left right, line = left ++ ("..." ++ right) ∧ dropEllipsisInQuotes line = left ++ right ∧
      '\x27' ∈ left ∧ '\x27' ∈ right := by
  induction line with
  | nil => exact .inl rfl
  | cons c line ih =>
    by_cases quote : c = '\x27'
    · subst quote
      rw [dropEllipsisInQuotes_quote]
      cases dropped : dropQuotedEllipsis? line with
      | none => exact .inl rfl
      | some shorter =>
        obtain ⟨left, right, rfl, rfl, quoted⟩ := dropQuotedEllipsis?_eq_some dropped
        exact .inr ⟨'\x27' :: left, right, rfl, rfl, mem_cons_self, quoted⟩
    · rw [dropEllipsisInQuotes_cons quote]
      rcases ih with same | ⟨left, right, rfl, lost, quotedLeft, quotedRight⟩
      · exact .inl (congrArg (c :: ·) same)
      · refine .inr ⟨c :: left, right, rfl, congrArg (c :: ·) lost, ?_, quotedRight⟩
        exact mem_cons_of_mem c quotedLeft

/-- A text that does not go across the boundary of two others stands in one of them. -/
theorem append_eq_append_cases {first second left middle right : Text}
    (apart : (∀ c ∈ first.getLast?, c ∉ middle) ∨ (∀ c ∈ second.head?, c ∉ middle))
    (same : first ++ second = left ++ (middle ++ right)) :
    (∃ more, first = left ++ (middle ++ more) ∧ right = more ++ second) ∨
    (∃ more, left = first ++ more ∧ second = more ++ (middle ++ right)) := by
  rcases append_eq_append_iff.mp same with ⟨more, isLeft, isSecond⟩ | ⟨shift, isFirst, shared⟩
  · exact .inr ⟨more, isLeft, isSecond⟩
  rcases append_eq_append_iff.mp shared with ⟨more, isShift, isRight⟩ | ⟨rest, isMiddle, isSecond⟩
  · exact .inl ⟨more, by rw [isFirst, isShift], isRight⟩
  rcases eq_nil_or_concat shift with rfl | ⟨_, last, isShift⟩
  · refine .inr ⟨[], by simpa using isFirst.symm, ?_⟩
    rw [isSecond, isMiddle]
    rfl
  cases rest with
  | nil =>
    refine .inl ⟨[], ?_, isSecond.symm⟩
    rw [isFirst, isMiddle, append_nil, append_nil]
  | cons next rest =>
    rw [concat_eq_append] at isShift
    rcases apart with ending | start
    · refine absurd ?_ (ending last ?_)
      · simp [isMiddle, isShift]
      · simp [isFirst, isShift]
    · refine absurd ?_ (start next ?_)
      · simp [isMiddle]
      · simp [isSecond]

/-- A comment up to the end of its line, or text in single quotes; and what follows it. -/
inductive IsProtected : Text → Text → Prop where
  | comment (text : Text) : IsProtected ('%' :: text) []
  | quoted {text : Text} (plain : '\x27' ∉ text) (behind : Text) :
      IsProtected ('\x27' :: (text ++ ['\x27'])) behind

/-- The second text is the first one, or lacks an ellipsis of it. -/
inductive Thins : Text → Text → Prop where
  | same (text : Text) : Thins text text
  | ellipsis (left right : Text) : Thins (left ++ ("..." ++ right)) (left ++ right)

/-- Comments and quoted text of the line are kept as long as none of their ellipses stands between
two quotes of the line; quoted text on its own loses its last ellipsis and nothing else. -/
structure KeepsParts (line kept : Text) : Prop where
  parts : ∀ before part behind, line = before ++ (part ++ behind) → IsProtected part behind →
    (∀ left right, part = left ++ ("..." ++ right) →
      '\x27' ∈ before ++ left → '\x27' ∉ right ++ behind) →
    ∃ start rest, kept = start ++ (part ++ rest) ∧ Thins before start ∧ Thins behind rest
  quoted : ∀ before left right behind,
    line = before ++ '\x27' :: (left ++ ("..." ++ (right ++ '\x27' :: behind))) →
    '\x27' ∉ before ++ left ++ right ++ behind → '%' ∉ before →
    ¬ ("..." : Text) <:+: ".." ++ right →
    kept = before ++ '\x27' :: (left ++ (right ++ '\x27' :: behind))

theorem IsProtected.apart {part behind : Text} (isProtected : IsProtected part behind) :
    (∀ c ∈ (part ++ behind).head?, c ∉ ("..." : Text)) ∧
    ((∀ c ∈ part.getLast?, c ∉ ("..." : Text)) ∨ (∀ c ∈ behind.head?, c ∉ ("..." : Text))) := by
  cases isProtected with
  | comment text => simp
  | quoted plain =>
    refine ⟨by simp, .inl ?_⟩
    rw [← cons_append, getLast?_concat]
    simp

theorem keepsParts_dropEllipsisInQuotes (line : Text) :
    KeepsParts line (dropEllipsisInQuotes line) := by
  constructor
  · intro before part behind shape isProtected unquoted
    rcases dropEllipsisInQuotes_cases line with same | ⟨left, right, split, lost, inLeft, inRight⟩
    · exact ⟨before, behind, by rw [same, shape], .same before, .same behind⟩
    -- The ellipsis lies in front of the part, inside it, or behind it, but not across its ends.
    obtain ⟨startApart, endApart⟩ := isProtected.apart
    rw [lost]
    rw [shape] at split
    rcases append_eq_append_cases (.inr startApart) split with ⟨more, isBefore, isRight⟩ |
      ⟨more, isLeft, inside⟩
    · refine ⟨left ++ more, behind, ?_, ?_, .same behind⟩
      · rw [isRight, append_assoc]
      · rw [isBefore]
        exact .ellipsis left more
    rcases append_eq_append_cases endApart inside with ⟨second, isPart, isRight⟩ |
      ⟨second, isMore, isBehind⟩
    · rw [isLeft] at inLeft
      rw [isRight] at inRight
      exact absurd inRight (unquoted more second isPart inLeft)
    · refine ⟨before, second ++ right, ?_, .same before, ?_⟩
      · rw [isLeft, isMore]
        simp only [append_assoc]
      · rw [isBehind]
        exact .ellipsis second right
  · intro before left right behind shape plain _ isLast
    simp only [mem_append, not_or] at plain
    obtain ⟨⟨⟨plainBefore, _⟩, plainRight⟩, plainBehind⟩ := plain
    have noOther : dropQuotedEllipsis? (".." ++ (right ++ '\x27' :: behind)) = none := by
      cases dropped : dropQuotedEllipsis? (".." ++ (right ++ '\x27' :: behind)) with
      | none => rfl
      | some shorter =>
        obtain ⟨front, rest, split, _, inRest⟩ := dropQuotedEllipsis?_eq_some dropped
        rw [← append_assoc] at split
        rcases append_eq_append_cases (.inr (by simp)) split with ⟨more, isRight, _⟩ |
          ⟨more, _, isBehind⟩
        · exact absurd ⟨front, more, by rw [isRight, append_assoc]⟩ isLast
        · cases more with
          | nil => exact absurd (List.cons.inj isBehind).1 (by decide)
          | cons quote more =>
            refine absurd ?_ plainBehind
            rw [(List.cons.inj isBehind).2]
            simp [inRest]
    rw [shape, dropEllipsisInQuotes_append plainBefore, dropEllipsisInQuotes_quote,
      dropQuotedEllipsis?_last (by simp) noOther, Option.getD_some]

section

def prepareLines (lines : List Text) : Text :=
  addParentheses (joinContinued (lines.map dropEllipsisInQuotes))

theorem prepareCode_eq_prepareLines (code : Text) :
    prepareCode code = prepareLines ((dropHeader code).splitOn '\n') :=
  rfl

theorem assignedSignature?_lineFeed (rest : Text) : assignedSignature? ('\n' :: rest) = none := by
  apply assignedSignature?_eq_none
  simp [dropWhile_cons_of_neg, isIndent]

theorem parenthesizeFrom_joinContinued (lineStart : Bool) (lines : List Text) :
    parenthesizeFrom lineStart (joinContinued ([] :: lines)) =
      parenthesizeFrom true (joinContinued ([] :: lines)) := by
  cases lines with
  | nil => rw [joinContinued, parenthesizeFrom, parenthesizeFrom]
  | cons line lines =>
    have newLine : joinContinued ([] :: line :: lines) = '\n' :: joinContinued (line :: lines) :=
      rfl
    rw [newLine, parenthesizeFrom_cons fun _ => assignedSignature?_lineFeed _,
      parenthesizeFrom_cons fun _ => assignedSignature?_lineFeed _]

variable {sign : Char} {front rest : Text}

theorem exists_dropEllipsisInQuotes_cons (barrier : isBarrier sign) (rest : Text) :
    ∃ kept, dropEllipsisInQuotes (sign :: rest) = sign :: kept := by
  by_cases quote : sign = '\x27'
  · subst quote
    exact ⟨_, dropEllipsisInQuotes_quote rest⟩
  · exact ⟨_, dropEllipsisInQuotes_cons quote⟩

theorem exists_dropEllipsisInQuotes_barrier (barrier : isBarrier sign) (oneLine : '\n' ∉ rest) :
    ∃ kept, dropEllipsisInQuotes (sign :: rest) = sign :: kept ∧ '\n' ∉ kept := by
  obtain ⟨kept, isKept⟩ := exists_dropEllipsisInQuotes_cons barrier rest
  refine ⟨kept, isKept, ?_⟩
  have notLineFeed : sign ≠ '\n' := by
    rintro rfl
    exact absurd barrier (by decide)
  have noLineFeed : '\n' ∉ sign :: rest :=
    not_mem_cons_of_ne_of_not_mem notLineFeed.symm oneLine
  intro member
  have inKept : '\n' ∈ dropEllipsisInQuotes (sign :: rest) := by simp [isKept, member]
  rcases dropEllipsisInQuotes_cases (sign :: rest) with same | ⟨left, right, split, lost, _, _⟩
  · exact noLineFeed (same ▸ inKept)
  · rw [lost] at inKept
    rw [split] at noLineFeed
    refine noLineFeed ?_
    rcases mem_append.mp inKept with inLeft | inRight
    · simp [inLeft]
    · simp [inRight]

/-- From its first barrier on, a line that is not continued is prepared on its own. -/
theorem prepareLines_barrier (barrier : isBarrier sign) (oneLine : '\n' ∉ rest)
    (plain : ∀ c ∈ front, isBarrier c = false) (notContinued : ¬ ("..." : Text) <:+: front)
    (earlier later : List Text) :
    prepareLines (earlier ++ (front ++ sign :: rest) :: later) =
      prepareLines (earlier ++ [front]) ++
        (dropEllipsisInQuotes (sign :: rest) ++ prepareLines ([] :: later)) := by
  have noQuote : '\x27' ∉ front := fun member => absurd (plain _ member) (by decide)
  have frontKept : dropEllipsisInQuotes front = front := by
    have kept := dropEllipsisInQuotes_append noQuote []
    rwa [append_nil, show dropEllipsisInQuotes [] = [] from rfl, append_nil] at kept
  obtain ⟨kept, isKept, keptLine⟩ := exists_dropEllipsisInQuotes_barrier barrier oneLine
  have whole := beforeContinuation?_barrier barrier plain notContinued kept
  simp only [prepareLines, map_append, map_cons, map_nil, frontKept,
    dropEllipsisInQuotes_append noQuote, isKept]
  have regrouped : ∀ lines more : Text, lines ++ (front ++ sign :: kept ++ more) =
      lines ++ front ++ sign :: (kept ++ more) := by
    simp
  rw [joinContinued_append_cons whole, joinContinued_append_singleton _ front, regrouped,
    addParentheses, parenthesizeFrom_append_barrier _ barrier, parenthesizeFrom_append keptLine,
    show dropEllipsisInQuotes [] = [] from rfl, parenthesizeFrom_joinContinued false]
  rfl

end

end MatlabDocs
