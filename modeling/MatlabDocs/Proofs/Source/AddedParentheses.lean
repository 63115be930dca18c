import MatlabDocs.Proofs.Source.WrittenSignatures

/-!
# Parentheses put into code

The code is cut into characters that are copied and signatures with outputs, each of which stands
at the start of a line.  A signature with arguments, or with a pair of parentheses at its end, is
kept as it stands.  In any other, parentheses are put behind the occurrences of its name, and so
once, behind the name itself, if the name does not occur in the keyword or in the outputs.
-/

namespace MatlabDocs

open List

namespace Text

variable {old : Text} (replacement : Text)

private theorem replaceFrom_eq_drop (skipped : Nat) (text : Text) :
    replaceFrom old replacement skipped text = replace old replacement (text.drop skipped) := by
  induction text generalizing skipped with
  | nil => simp [replace, replaceFrom]
  | cons c text ih =>
    cases skipped with
    | zero => rfl
    | succ skipped => exact ih skipped

theorem replace_append (notEmpty : old ≠ []) (rest : Text) :
    replace old replacement (old ++ rest) = replacement ++ replace old replacement rest := by
  obtain ⟨c, others, rfl⟩ := exists_cons_of_ne_nil notEmpty
  have starts : (c :: others).isPrefixOf (c :: (others ++ rest)) := by
    rw [List.isPrefixOf_iff_prefix]
    exact prefix_append (c :: others) rest
  rw [cons_append, replace, replaceFrom, if_pos starts, replaceFrom_eq_drop,
    length_cons, Nat.add_sub_cancel, drop_left]

/-- No occurrence goes across a sign that the replaced text does not hold. -/
theorem replace_append_stop {stop : Char} (notEmpty : old ≠ []) (absent : stop ∉ old)
    (front rest : Text) :
    replace old replacement (front ++ stop :: rest) =
      replace old replacement front ++ stop :: replace old replacement rest := by
  cases starts : old.isPrefixOf front with
  | true =>
    obtain ⟨more, rfl⟩ := List.isPrefixOf_iff_prefix.mp starts
    have shorter : more.length < (old ++ more).length := by
      have := length_pos_iff.mpr notEmpty
      simp only [length_append]
      omega
    rw [append_assoc, replace_append replacement notEmpty,
      replace_append replacement notEmpty, replace_append_stop notEmpty absent more rest,
      append_assoc]
  | false =>
    have elsewhere : old.isPrefixOf (front ++ stop :: rest) = false := by
      rw [isPrefixOf_append_stop absent, starts]
    cases front with
    | nil => exact replace_cons_of_not_prefix elsewhere
    | cons c front =>
      rw [cons_append] at elsewhere
      rw [cons_append, replace_cons_of_not_prefix elsewhere,
        replace_cons_of_not_prefix starts, replace_append_stop notEmpty absent front rest,
        cons_append]
termination_by front.length

theorem replace_of_not_infix {text : Text} (nowhere : ¬ old <:+: text) :
    replace old replacement text = text := by
  induction text with
  | nil => rfl
  | cons c text ih =>
    have notHere : old.isPrefixOf (c :: text) = false := by
      rw [Bool.eq_false_iff]
      exact fun starts => nowhere (List.isPrefixOf_iff_prefix.mp starts).isInfix
    rw [ replace_cons_of_not_prefix notHere,
      ih fun inside => nowhere (inside.trans (suffix_cons c text).isInfix)]

end Text

/-- The second text is the first one with parentheses put in, each pair of them directly behind
an occurrence of the name. -/
inductive PutBehind (name : Text) : Text → Text → Prop where
  | nil : PutBehind name [] []
  | copied (c : Char) {text shown : Text} :
      PutBehind name text shown → PutBehind name (c :: text) (c :: shown)
  | marked {text shown : Text} :
      PutBehind name text shown → PutBehind name (name ++ text) (name ++ ("()" ++ shown))

theorem PutBehind.refl (name text : Text) : PutBehind name text text := by
  induction text with
  | nil => exact .nil
  | cons c text ih => exact .copied c ih

theorem Text.putBehind_replace {name : Text} (notEmpty : name ≠ []) (text : Text) :
    PutBehind name text (replace name (name ++ "()") text) := by
  cases starts : name.isPrefixOf text with
  | true =>
    obtain ⟨rest, rfl⟩ := List.isPrefixOf_iff_prefix.mp starts
    have shorter : rest.length < (name ++ rest).length := by
      have := length_pos_iff.mpr notEmpty
      simp only [length_append]
      omega
    rw [replace_append _ notEmpty, append_assoc]
    exact .marked (putBehind_replace notEmpty rest)
  | false =>
    cases text with
    | nil => exact .nil
    | cons c text =>
      rw [ replace_cons_of_not_prefix starts]
      exact .copied c (putBehind_replace notEmpty text)
termination_by text.length

namespace WrittenSignature

variable (signature : WrittenSignature)

/-- How a signature is shown in the code with parentheses. -/
structure ShownAs (shown : Text) : Prop where
  putBehind : PutBehind signature.name signature.text shown
  listed : signature.call.arguments ≠ [] → shown = signature.text
  paired : signature.call.opening ≠ [] → signature.call.closing ≠ [] → shown = signature.text
  replaced : signature.call.arguments = [] →
    signature.call.opening = [] ∨ signature.call.closing = [] →
      shown = Text.replace signature.name (signature.name ++ "()") signature.text
  added : signature.call.arguments = [] →
    signature.call.opening = [] ∨ signature.call.closing = [] →
    ¬ signature.name <:+: signature.head →
      shown = signature.head ++ (signature.name ++ ("()" ++ signature.call.text))

theorem not_isWord_call (unlisted : signature.call.arguments = []) :
    ∀ c ∈ signature.call.text, isWord c = false := by
  have ofOptional : ∀ {sign : Char} {part : Text}, isWord sign = false → IsOptional sign part →
      ∀ c ∈ part, isWord c = false := by
    rintro sign part notWord (rfl | rfl)
    · simp
    · simpa using notWord
  rw [WrittenCall.text, unlisted, nil_append]
  refine forall_mem_append.mpr ⟨fun c member => ?_, forall_mem_append.mpr
    ⟨ofOptional (by decide) signature.call.isOptional_opening,
      ofOptional (by decide) signature.call.isOptional_closing⟩⟩
  rw [Bool.eq_false_iff]
  intro word
  exact absurd (signature.call.isGap_gap c member) (by simp [not_isGap_of_isWord word])

private theorem getLast?_head_append :
    ∀ c ∈ (signature.head ++ (signature.name ++ signature.call.gap)).getLast?,
      c ≠ '(' ∧ c ≠ ')' := by
  intro c member
  have notEmpty : signature.name ++ signature.call.gap ≠ [] :=
    append_ne_nil_of_left_ne_nil signature.name_ne_nil _
  rw [getLast?_append, getLast?_eq_some_getLast notEmpty, Option.some_or,
    ← getLast?_eq_some_getLast notEmpty] at member
  rcases mem_append.mp (mem_of_getLast? member) with inName | inGap
  · have word := signature.isWord_name c inName
    exact ⟨ne_of_test word (by decide), ne_of_test word (by decide)⟩
  · have gap := signature.call.isGap_gap c inGap
    exact ⟨ne_of_test gap (by decide), ne_of_test gap (by decide)⟩

theorem endsWith_text_iff (unlisted : signature.call.arguments = []) :
    signature.text.endsWith "()" ↔ signature.call.opening ≠ [] ∧ signature.call.closing ≠ [] := by
  have regrouped : signature.text = (signature.head ++ (signature.name ++ signature.call.gap)) ++
      (signature.call.opening ++ signature.call.closing) := by
    simp [text, WrittenCall.text, unlisted]
  have last := signature.getLast?_head_append
  rw [Text.endsWith, isSuffixOf_iff_suffix, regrouped]
  generalize signature.head ++ (signature.name ++ signature.call.gap) = front at last
  rcases signature.call.isOptional_opening with opening | opening <;>
    rcases signature.call.isOptional_closing with closing | closing <;> rw [opening, closing]
  · refine iff_of_false ?_ (by simp)
    rintro ⟨before, same⟩
    rw [append_nil, append_nil] at same
    exact (last ')' (by simp [← same])).2 rfl
  · refine iff_of_false ?_ (by simp)
    rintro ⟨before, same⟩
    have regrouped : (before ++ ['(']) ++ [')'] = front ++ [')'] := by
      simpa using same
    have shorter : before ++ ['('] = front := append_cancel_right regrouped
    exact (last '(' (by simp [← shorter])).1 rfl
  · refine iff_of_false ?_ (by simp)
    rintro ⟨before, same⟩
    have ending := congrArg List.getLast? same
    simp at ending
  · exact iff_of_true (suffix_append front _) (by simp)

/-- A name that does not occur in front of itself is the only occurrence. -/
private theorem replace_text (replacement : Text) (unlisted : signature.call.arguments = [])
    (unique : ¬ signature.name <:+: signature.head) :
    Text.replace signature.name replacement signature.text =
      signature.head ++ (replacement ++ signature.call.text) := by
  have notEmpty := signature.name_ne_nil
  have plainGap : ∀ c ∈ signature.nameGap, isWord c = false := by
    intro c member
    rw [Bool.eq_false_iff]
    intro word
    exact absurd (signature.isGap_nameGap c member) (by simp [not_isGap_of_isWord word])
  let front := signature.indentation ++ (("function" : Text) ++ signature.outputs)
  have isHead : signature.head = front ++ '=' :: signature.nameGap := by
    simp [head, front]
  have notFront : ¬ signature.name <:+: front := fun inside =>
    unique (inside.trans (isHead ▸ (prefix_append front _).isInfix))
  have call : Text.replace signature.name replacement signature.call.text =
      signature.call.text := by
    have copied := Text.replace_append_of_not_isWord notEmpty signature.isWord_name
      (signature.not_isWord_call unlisted) replacement []
    rwa [append_nil, show Text.replace signature.name replacement [] = [] from rfl,
      append_nil] at copied
  calc
    Text.replace signature.name replacement signature.text =
        Text.replace signature.name replacement (front ++ '=' :: (signature.nameGap ++
          (signature.name ++ signature.call.text))) := by
        rw [text, isHead, append_assoc, cons_append]
    _ = front ++ '=' :: (signature.nameGap ++ (replacement ++ signature.call.text)) := by
        rw [Text.replace_append_stop _ notEmpty
            (fun member => ne_of_test (signature.isWord_name _ member) (by decide) rfl),
          Text.replace_of_not_infix _ notFront,
          Text.replace_append_of_not_isWord notEmpty signature.isWord_name plainGap,
          Text.replace_append _ notEmpty, call]
    _ = (front ++ '=' :: signature.nameGap) ++ (replacement ++ signature.call.text) :=
        (append_assoc front ('=' :: signature.nameGap) _).symm
    _ = signature.head ++ (replacement ++ signature.call.text) := by rw [isHead]

theorem shownAs_parenthesized (rest : Text) :
    signature.ShownAs
      (parenthesized ⟨signature.name, signature.call.arguments, rest⟩ signature.text) := by
  by_cases kept : signature.call.arguments ≠ [] ∨
      (signature.call.opening ≠ [] ∧ signature.call.closing ≠ [])
  · have same : parenthesized ⟨signature.name, signature.call.arguments, rest⟩ signature.text =
        signature.text := by
      rw [parenthesized, if_neg]
      rcases kept with listed | paired
      · simp [listed]
      · by_cases unlisted : signature.call.arguments = []
        · rw [(signature.endsWith_text_iff unlisted).mpr paired]
          simp
        · simp [unlisted]
    rw [same]
    have notBoth : signature.call.arguments = [] →
        ¬ (signature.call.opening = [] ∨ signature.call.closing = []) := by
      intro unlisted
      exact not_or.mpr (kept.resolve_left fun listed => listed unlisted)
    exact ⟨.refl _ _, fun _ => rfl, fun _ _ => rfl,
      fun unlisted unpaired => absurd unpaired (notBoth unlisted),
      fun unlisted unpaired => absurd unpaired (notBoth unlisted)⟩
  · obtain ⟨notListed, notPaired⟩ := not_or.mp kept
    have unlisted : signature.call.arguments = [] := Decidable.of_not_not notListed
    have replaced : parenthesized ⟨signature.name, signature.call.arguments, rest⟩ signature.text =
        Text.replace signature.name (signature.name ++ "()") signature.text := by
      have ends : signature.text.endsWith "()" = false := by
        rw [Bool.eq_false_iff]
        exact fun ends => notPaired ((signature.endsWith_text_iff unlisted).mp ends)
      rw [parenthesized, if_pos]
      rw [ends]
      simp [unlisted]
    rw [replaced]
    refine ⟨Text.putBehind_replace signature.name_ne_nil _, fun listed => absurd unlisted listed,
      fun opened closed => absurd ⟨opened, closed⟩ notPaired, fun _ _ => rfl,
      fun _ _ unique => ?_⟩
    rw [signature.replace_text _ unlisted unique, append_assoc]

end WrittenSignature

/-- A part of the code: a character that is copied, or a signature with the text that is shown in
its place. -/
inductive CodeSegment where
  | copied (c : Char)
  | signature (written : WrittenSignature) (shown : Text)

def CodeSegment.written : CodeSegment → Text
  | copied c => [c]
  | signature written _ => written.text

def CodeSegment.shown : CodeSegment → Text
  | copied c => [c]
  | signature _ shown => shown

/-- Whether a line starts behind the given text; the flag says so of the empty text. -/
def startsLine (lineStart : Bool) (front : Text) : Bool :=
  (front.getLast?.map (· == '\n')).getD lineStart

section

variable {lineStart : Bool} {front rest : Text}

theorem startsLine_append (notEmpty : front ≠ []) :
    startsLine lineStart (front ++ rest) = startsLine (front.getLast? == some '\n') rest := by
  rw [startsLine, startsLine, getLast?_append, getLast?_eq_some_getLast notEmpty]
  cases rest.getLast? with
  | none => simp
  | some last => rfl

/-- The segments of a code and of the code with parentheses: which of them are signatures, and
that none is left out. -/
structure Segmented (lineStart : Bool) (code result : Text) (segments : List CodeSegment) :
    Prop where
  written : code = segments.flatMap CodeSegment.written
  shown : result = segments.flatMap CodeSegment.shown
  /-- A signature stands at the start of a line and is as long as it can be. -/
  signatures : ∀ before signature shown after,
    segments = before ++ .signature signature shown :: after →
      startsLine lineStart (before.flatMap CodeSegment.written) ∧
        signature.EndsAt (after.flatMap CodeSegment.written) ∧ signature.ShownAs shown
  /-- A signature at the start of a line is a segment or begins inside of another one. -/
  complete : ∀ front signature rest, code = front ++ (signature.text ++ rest) →
    startsLine lineStart front → signature.EndsAt rest →
      ∃ before found shown after, segments = before ++ .signature found shown :: after ∧
        ((before.flatMap CodeSegment.written = front ∧ found = signature) ∨
          ((before.flatMap CodeSegment.written).length < front.length ∧
            front.length < (before.flatMap CodeSegment.written ++ found.text).length))

theorem CodeSegment.written_ne_nil (segment : CodeSegment) : segment.written ≠ [] := by
  cases segment with
  | copied c => exact cons_ne_nil c []
  | signature signature shown => exact signature.text_ne_nil

variable {code result : Text} {segments : List CodeSegment}

theorem Segmented.nil (lineStart : Bool) : Segmented lineStart [] [] [] where
  written := rfl
  shown := rfl
  signatures := fun before signature shown after split => by simp at split
  complete := fun front signature rest split _ _ => by
    have empty := (append_eq_nil_iff.mp (append_eq_nil_iff.mp split.symm).2).1
    exact absurd empty signature.text_ne_nil

/-- One segment more in front: it is a signature exactly if there is one at the start. -/
theorem Segmented.cons {segment : CodeSegment}
    (below : Segmented (segment.written.getLast? == some '\n') code result segments)
    (isSignature : ∀ signature shown, segment = .signature signature shown →
      lineStart ∧ signature.EndsAt code ∧ signature.ShownAs shown)
    (isFound : ∀ signature rest, segment.written ++ code = signature.text ++ rest → lineStart →
      signature.EndsAt rest → ∃ shown, segment = .signature signature shown)
    (isLong : 1 < segment.written.length →
      ∃ signature shown, segment = .signature signature shown) :
    Segmented lineStart (segment.written ++ code) (segment.shown ++ result)
      (segment :: segments) where
  written := by rw [flatMap_cons, ← below.written]
  shown := by rw [flatMap_cons, ← below.shown]
  signatures := by
    intro before signature shown after split
    cases before with
    | nil =>
      obtain ⟨isFirst, rfl⟩ := List.cons.inj split
      rw [← below.written]
      exact isSignature signature shown isFirst
    | cons first before =>
      obtain ⟨rfl, later⟩ := List.cons.inj split
      rw [flatMap_cons, startsLine_append segment.written_ne_nil]
      exact below.signatures before signature shown after later
  complete := by
    intro front signature rest split starts ends
    by_cases atStart : front = []
    · subst atStart
      obtain ⟨shown, rfl⟩ := isFound signature rest split starts ends
      exact ⟨[], signature, shown, segments, rfl, Or.inl ⟨rfl, rfl⟩⟩
    by_cases inside : front.length < segment.written.length
    · -- The text begins behind the first character of this segment.
      have positive := length_pos_iff.mpr atStart
      obtain ⟨found, shown, rfl⟩ := isLong (by omega)
      exact ⟨[], found, shown, segments, rfl, Or.inr ⟨positive, inside⟩⟩
    · obtain ⟨more, rfl⟩ : segment.written <+: front := by
        refine prefix_of_prefix_length_le ⟨code, rfl⟩ ?_ (by omega)
        exact ⟨_, split.symm⟩
      rw [append_assoc] at split
      rw [startsLine_append segment.written_ne_nil] at starts
      obtain ⟨before, found, shown, after, isSplit, place⟩ :=
        below.complete more signature rest (append_cancel_left split) starts ends
      refine ⟨segment :: before, found, shown, after, by rw [isSplit]; rfl, ?_⟩
      simp only [flatMap_cons, length_append] at place ⊢
      rcases place with ⟨sameFront, sameSignature⟩ | ⟨behind, before⟩
      · exact Or.inl ⟨by rw [sameFront], sameSignature⟩
      · exact Or.inr ⟨by omega, by omega⟩

theorem Segmented.copied {c : Char} (below : Segmented (c == '\n') code result segments)
    (nothing : lineStart = true → assignedSignature? (c :: code) = none) :
    Segmented lineStart (c :: code) (c :: result) (.copied c :: segments) := by
  refine @Segmented.cons _ _ _ _ (.copied c) below ?_ ?_ ?_
  · intro signature shown same
    cases same
  · intro signature rest split atStart ends
    have found := signature.assignedSignature?_text_append ends
    rw [← split] at found
    exact absurd (found.symm.trans (nothing atStart)) (by simp)
  · intro long
    exact absurd long (by simp [CodeSegment.written])

theorem Segmented.signature {signature : WrittenSignature} {shown : Text}
    (ends : signature.EndsAt code) (shownAs : signature.ShownAs shown)
    (below : Segmented (signature.text.getLast? == some '\n') code result segments) :
    Segmented true (signature.text ++ code) (shown ++ result)
      (.signature signature shown :: segments) := by
  refine @Segmented.cons _ _ _ _ (.signature signature shown) below ?_ ?_ ?_
  · intro other otherShown same
    obtain ⟨rfl, rfl⟩ := CodeSegment.signature.inj same
    exact ⟨rfl, ends, shownAs⟩
  · intro other rest split _ otherEnds
    obtain ⟨rfl, _⟩ := WrittenSignature.eq_of_text_append_eq ends otherEnds split
    exact ⟨shown, rfl⟩
  · intro _
    exact ⟨signature, shown, rfl⟩

theorem exists_segmented_parenthesizeFrom (lineStart : Bool) (code : Text) :
    ∃ segments, Segmented lineStart code (parenthesizeFrom lineStart code) segments := by
  match code with
  | [] =>
    rw [parenthesizeFrom]
    exact ⟨[], .nil lineStart⟩
  | c :: rest =>
    cases isFound : if lineStart then assignedSignature? (c :: rest) else none with
    | none =>
      have nothing : lineStart = true → assignedSignature? (c :: rest) = none := by
        intro atStart
        rwa [if_pos atStart] at isFound
      obtain ⟨segments, below⟩ := exists_segmented_parenthesizeFrom (c == '\n') rest
      rw [parenthesizeFrom_cons nothing]
      exact ⟨_, below.copied nothing⟩
    | some found =>
      obtain ⟨rfl, isFound⟩ : lineStart = true ∧ assignedSignature? (c :: rest) = some found := by
        cases lineStart with
        | false => cases isFound
        | true => exact ⟨rfl, isFound⟩
      obtain ⟨signature, split, _, _, ends⟩ :=
        exists_writtenSignature_of_assignedSignature? isFound
      have shorter : found.rest.length < (c :: rest).length := by
        have positive := length_pos_iff.mpr signature.text_ne_nil
        rw [split, length_append]
        omega
      obtain ⟨segments, below⟩ := exists_segmented_parenthesizeFrom
        (signature.text.getLast? == some '\n') found.rest
      rw [split, parenthesizeFrom_of_signature signature.text_ne_nil
        (signature.assignedSignature?_text_append ends)]
      exact ⟨_, below.signature ends (signature.shownAs_parenthesized _)⟩
termination_by code.length
decreasing_by
  · exact Nat.lt_succ_self _
  · exact shorter

theorem eq_nil_of_flatMap_written (empty : segments.flatMap CodeSegment.written = []) :
    segments = [] := by
  cases segments with
  | nil => rfl
  | cons segment segments =>
    rw [flatMap_cons] at empty
    exact absurd (append_eq_nil_iff.mp empty).1 segment.written_ne_nil

/-- Parentheses are put into signatures with outputs, and nothing else in the code changes.  The
signatures are all those at the start of a line, apart from what lies inside of another one.  One
with arguments or with both parentheses stays as it is.  In any other the parentheses are put
behind occurrences of its name only: exactly once, behind the name, if the name does not occur
earlier in the signature. -/
theorem parentheses_put_behind_names (code : Text) :
    ∃ segments, Segmented true code (addParentheses code) segments :=
  exists_segmented_parenthesizeFrom true code

def scaleSignature : WrittenSignature where
  indentation := "  "
  outputs := " [a, b] "
  nameGap := " "
  name := "scale"
  call :=
    { gap := "\n"
      opening := []
      arguments := []
      closing := []
      isGap_gap := by simp [isGap]
      isOptional_opening := Or.inl rfl
      isListed_arguments := by simp
      isOptional_closing := Or.inl rfl }
  isIndent_indentation := by simp [isIndent]
  isOutputs := ⟨" ", "[", "a, b] ", by simp [isGap, isIndent], Or.inr rfl,
    ⟨"a, b", "]", " ", all_eq_true.mp (by decide), Or.inr rfl, by simp [isGap, isIndent],
      rfl⟩, rfl⟩
  isGap_nameGap := by simp [isGap, isIndent]
  name_ne_nil := by simp
  isWord_name := all_eq_true.mp (by decide)

theorem scaleSignature_endsAt_nil : scaleSignature.EndsAt [] where
  name := by
    intro c member
    obtain rfl : '\n' = c := by simpa [WrittenCall.text, scaleSignature] using member
    decide
  call := ⟨by simp [scaleSignature], by simp [scaleSignature], by simp [scaleSignature], by simp⟩

private theorem scaleSignature_name_not_infix : ¬ scaleSignature.name <:+: scaleSignature.head := by
  intro inside
  have initial : 's' ∈ scaleSignature.name := by decide
  exact absurd (inside.subset initial) (by decide)

theorem parentheses_put_behind_names_scale :
    addParentheses "  function [a, b] = scale\n" = "  function [a, b] = scale()\n" := by
  obtain ⟨segments, segmented⟩ := parentheses_put_behind_names "  function [a, b] = scale\n"
  obtain ⟨before, found, shown, after, split, place⟩ :=
    segmented.complete [] scaleSignature [] rfl rfl scaleSignature_endsAt_nil
  rcases place with ⟨first, rfl⟩ | ⟨impossible, _⟩
  · obtain rfl := eq_nil_of_flatMap_written first
    obtain ⟨-, -, shownAs⟩ := segmented.signatures [] scaleSignature shown after split
    have isWritten := segmented.written
    have isShown := segmented.shown
    rw [split, List.nil_append, List.flatMap_cons] at isWritten isShown
    -- The signature is the whole code, so nothing comes behind it.
    obtain rfl : after = [] :=
      eq_nil_of_flatMap_written (List.append_cancel_left
        (isWritten.symm.trans (List.append_nil _).symm))
    rw [isShown, CodeSegment.shown, shownAs.added rfl (Or.inl rfl)
      scaleSignature_name_not_infix]
    rfl
  · exact absurd impossible (Nat.not_lt_zero _)

/-- Parentheses are put into the keyword and into an output that hold the name; they are put in
front of an argument list that starts with a sign; and they are missing where the next line starts
with a word. -/
theorem parentheses_misplaced :
    addParentheses "function total = t\n" = "funct()ion t()ot()al = t()\n" ∧
      addParentheses "function y = scale(~" = "function y = scale()(~" ∧
      addParentheses "function y = scale\nx" = "function y = scale\nx" := by
  refine ⟨?_, ?_, ?_⟩
  · have found : assignedSignature? (("function total = t\n" : Text) ++ []) =
        some ⟨"t", [], []⟩ := by decide
    have only := parenthesizeFrom_of_signature (by simp) found
    rw [parenthesizeFrom] at only
    exact only.trans (by decide)
  · have found : assignedSignature? (("function y = scale(" : Text) ++ ['~']) =
        some ⟨"scale", [], ['~']⟩ := by decide
    have first := parenthesizeFrom_of_signature (by simp) found
    rw [parenthesizeFrom_cons (by simp), parenthesizeFrom] at first
    exact first.trans (by decide)
  · have found : assignedSignature? (("function y = scale\nx" : Text) ++ []) =
        some ⟨"scale", "x", []⟩ := by decide
    have only := parenthesizeFrom_of_signature (by simp) found
    rw [parenthesizeFrom] at only
    exact only.trans (by decide)

end

section

theorem head?_eq_find? (text : Text) : text.head? = text.find? fun _ => true := by
  cases text with
  | nil => rfl
  | cons c text => rfl

theorem head?_dropWhile (test : Char → Bool) (text : Text) :
    (text.dropWhile test).head? = text.find? fun c => !test c := by
  induction text with
  | nil => rfl
  | cons c text ih =>
    cases passes : test c with
    | true => rw [dropWhile_cons_of_pos passes, find?_cons_of_neg (by simp [passes]),
        ih]
    | false =>
      rw [dropWhile_cons_of_neg (by simp [passes]), find?_cons_of_pos (by simp [passes]),
        head?_cons]

variable {test : Char → Bool} (words : ∀ c, isWord c → test c)

include words

theorem PutBehind.find?_eq {name text shown : Text} (notEmpty : name ≠ [])
    (isName : ∀ c ∈ name, isWord c) (put : PutBehind name text shown) :
    shown.find? test = text.find? test := by
  induction put with
  | nil => rfl
  | copied c _ ih => rw [find?_cons, find?_cons, ih]
  | marked _ _ =>
    obtain ⟨c, others, rfl⟩ := exists_cons_of_ne_nil notEmpty
    have found := words c (isName c mem_cons_self)
    rw [cons_append, cons_append, find?_cons_of_pos found, find?_cons_of_pos found]

variable (lineStart : Bool) (text : Text)

/-- What comes first among characters that words are made of stays first. -/
theorem find?_parenthesizeFrom :
    (parenthesizeFrom lineStart text).find? test = text.find? test := by
  obtain ⟨segments, segmented⟩ := exists_segmented_parenthesizeFrom lineStart text
  have same : ∀ segment ∈ segments, segment.shown.find? test = segment.written.find? test := by
    intro segment member
    cases segment with
    | copied c => rfl
    | signature signature shown =>
      obtain ⟨before, after, split⟩ := append_of_mem member
      obtain ⟨_, _, isShown⟩ := segmented.signatures before signature shown after split
      exact isShown.putBehind.find?_eq words signature.name_ne_nil signature.isWord_name
  have sameSegments : (segments.flatMap CodeSegment.shown).find? test =
      (segments.flatMap CodeSegment.written).find? test := by
    clear segmented
    induction segments with
    | nil => rfl
    | cons segment segments ih =>
      obtain ⟨sameHere, sameLater⟩ := forall_mem_cons.mp same
      rw [flatMap_cons, flatMap_cons, find?_append, find?_append, sameHere,
        ih sameLater]
  rw [segmented.shown, sameSegments, ← segmented.written]

omit words

theorem head?_parenthesizeFrom : (parenthesizeFrom lineStart text).head? = text.head? := by
  rw [head?_eq_find?, head?_eq_find?]
  exact find?_parenthesizeFrom (fun _ _ => rfl) lineStart text

theorem exists_parenthesizeFrom_cons (c : Char) (rest : Text) :
    ∃ more, parenthesizeFrom lineStart (c :: rest) = c :: more :=
  head?_eq_some_iff.mp (head?_parenthesizeFrom lineStart (c :: rest))

private theorem not_isIndent_of_isWord {c : Char} (word : isWord c) : isIndent c = false := by
  have blank : c ≠ ' ' := ne_of_test word (by decide)
  have tab : c ≠ '\t' := ne_of_test word (by decide)
  simp [isIndent, blank, tab]

theorem EndsComments.parenthesizeFrom {text : Text} (ends : EndsComments text)
    (lineStart : Bool) : EndsComments (parenthesizeFrom lineStart text) := by
  rw [EndsComments, head?_dropWhile] at ends ⊢
  rwa [find?_parenthesizeFrom fun c word => by simp [not_isIndent_of_isWord word]]

end

end MatlabDocs
