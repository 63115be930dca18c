import MatlabDocs.Proofs.Token.PlainLines

/-!
# Where names of functions stand

The name of a function is only looked for behind the keyword of a function, which stands at the
start of a line.  What is passed over on the way are the outputs, the equals sign, blanks and
errors; a line feed ends the search.
-/

namespace MatlabDocs

open List LexMode LexRule Token Option

namespace Token

/-- What may stand between the keyword of a function and its name. -/
def isInHead (token : Token) : Bool :=
  [TokenKind.whitespace, .text, .error].contains token.kind || token.isPunctuation "="

/-- The token neither names a function nor is the keyword of one. -/
def isOrdinary (token : Token) : Bool :=
  token.kind != .functionName && !token.isFunctionKeyword

theorem isOrdinary_of_isInHead {token : Token} (inHead : token.isInHead) : token.isOrdinary := by
  obtain ⟨kind, value⟩ := token
  cases kind <;> simp [isInHead, isOrdinary, isFunctionKeyword, isPunctuation] at inHead ⊢

end Token

/-- Behind the last keyword of a function stands only what may stand in its head. -/
def EndsInHead (tokens : List Token) : Prop :=
  ∃ earlier keyword between, tokens = earlier ++ keyword :: between ∧ keyword.isFunctionKeyword ∧
    ∀ token ∈ between, token.isInHead

/-- The tokens of a run in this mode end in a head, in which the run may have started. -/
def LexMode.EndsInHead (mode : LexMode) (tokens : List Token) : Prop :=
  MatlabDocs.EndsInHead tokens ∨ mode = .functionHead ∧ ∀ token ∈ tokens, token.isInHead

/-- The keyword stands at the start of a line, behind blanks and in front of a blank or an opening
bracket. -/
structure StartsHead (before : Option Char) (keyword : Token) (rest : Text) : Prop where
  atStart : atLineStart before
  value : ∃ blanks : Text, (∀ c ∈ blanks, isBlank c) ∧ keyword.value = blanks ++ "function"
  follows : ∃ c ∈ rest.head?, isBlank c ∨ c = '['

/-- What one step gives, if it starts in this mode behind this character. -/
structure LexStep.KeepsHeads (step : LexStep) (mode : LexMode) (before : Option Char)
    (text : Text) : Prop where
  names : ∀ front name back, cutPieces step.pieces text = front ++ name :: back →
    name.kind = .functionName → mode.EndsInHead front
  leads : step.mode = .functionHead → mode.EndsInHead (cutPieces step.pieces text)
  keywords : ∀ keyword ∈ cutPieces step.pieces text, keyword.isFunctionKeyword →
    cutPieces step.pieces text = [keyword] ∧ StartsHead before keyword (text.drop step.length)

section

variable {mode : LexMode} {before : Option Char} {text : Text} {step : LexStep}

theorem LexStep.KeepsHeads.of_isOrdinary
    (plain : ∀ token ∈ cutPieces step.pieces text, token.isOrdinary)
    (leads : step.mode = .functionHead → mode.EndsInHead (cutPieces step.pieces text)) :
    step.KeepsHeads mode before text where
  names front name back split isName := by
    have ordinary := plain name (by simp [split])
    simp [isOrdinary, isName] at ordinary
  leads := leads
  keywords keyword member isKeyword := by
    have ordinary := plain keyword member
    simp [isOrdinary, isKeyword] at ordinary

theorem LexStep.recover_keepsHeads (c : Char) : (recover mode c).KeepsHeads mode before text := by
  have inHead : ∀ token ∈ cutPieces (recover mode c).pieces text, token.isInHead := by
    intro token member
    obtain ⟨length, inPieces⟩ := kind_mem_cutPieces token member
    rw [recover] at inPieces
    split at inPieces <;> simp_all [single, isInHead]
  refine .of_isOrdinary (fun token member => isOrdinary_of_isInHead (inHead token member)) ?_
  intro isHead
  refine .inr ⟨?_, inHead⟩
  rw [recover] at isHead
  split at isHead
  · cases isHead
  · exact isHead

theorem LexRule.knownWord_isOrdinary (applied : knownWord before text = some step) :
    ∀ token ∈ cutPieces step.pieces text, token.isOrdinary := by
  unfold knownWord at applied
  split at applied
  · rename_i c rest
    have taken : (c :: rest).take ((rest.takeWhile isWord).length + 1) =
        c :: rest.takeWhile isWord := by
      rw [take_succ_cons, ← prefix_iff_eq_take.mp (List.takeWhile_prefix isWord)]
    have others : keywords.all fun word => word.strip != "function" := by decide
    dsimp only at applied
    split at applied
    · split at applied
      · rename_i isKeyword
        cases applied
        have other := all_eq_true.mp others _ (contains_iff_mem.mp isKeyword)
        simpa [LexStep.single, cutPieces, taken, isOrdinary, isFunctionKeyword]
          using other
      · split at applied
        · cases applied
          simp [LexStep.single, cutPieces, taken, isOrdinary, isFunctionKeyword]
        · cases applied
    · cases applied
  · cases applied

theorem LexRule.functionKeyword_startsHead (applied : functionKeyword before text = some step) :
    ∃ keyword, cutPieces step.pieces text = [keyword] ∧ keyword.kind = .keyword ∧
      StartsHead before keyword (text.drop step.length) := by
  unfold functionKeyword at applied
  dsimp only at applied
  split at applied
  · rename_i next more shape
    split at applied
    · rename_i starts
      cases applied
      obtain ⟨atStart, ends⟩ := Bool.and_eq_true _ _ ▸ starts
      have split := Text.eq_append_of_afterStart? shape
      rw [blankLength, drop_length_takeWhile] at split
      have whole := @takeWhile_append_dropWhile _ isBlank text
      rw [split, ← append_assoc] at whole
      have length : (text.takeWhile isBlank ++ ("function" : Text)).length =
          blankLength text + 7 + 1 := length_append
      have taken := (congrArg (take _) whole.symm).trans (take_left' length)
      have left := (congrArg (drop _) whole.symm).trans (drop_left' length)
      refine ⟨⟨.keyword, text.takeWhile isBlank ++ ("function" : Text)⟩, ?_, rfl, atStart,
        ⟨_, all_eq_true.mp all_takeWhile, rfl⟩, next, ?_, by simpa using ends⟩
      · simp [LexStep.single, cutPieces, taken]
      · simp [LexStep.length, LexStep.single, piecesLength, left]
    · cases applied
  · cases applied

theorem LexRule.functionKeyword_keepsHeads (applied : functionKeyword before text = some step) :
    step.KeepsHeads mode before text := by
  obtain ⟨keyword, isKeyword, kind, starts⟩ := functionKeyword_startsHead applied
  constructor
  · intro front name back split isName
    obtain rfl : name = keyword := mem_singleton.mp (isKeyword ▸ split ▸ by simp)
    rw [kind] at isName
    cases isName
  · intro _
    obtain ⟨blanks, areBlank, value⟩ := starts.value
    refine .inl ⟨[], keyword, [], isKeyword, ?_, by simp⟩
    rw [isFunctionKeyword, kind, value, Text.strip_append_of_blank areBlank]
    rfl
  · intro other member _
    obtain rfl := mem_singleton.mp (isKeyword ▸ member)
    exact ⟨isKeyword, starts⟩

end

/-! ### Heads -/

theorem equals_of_headLengths? {text : Text} {head : HeadLengths} {found : OutputLengths}
    (isHead : headLengths? text = some head) (assigned : head.outputs = some found) :
    ∃ rest, text.drop (head.blanks + (found.outputs + found.beforeEquals)) = '=' :: rest := by
  obtain ⟨blanks, _, here⟩ := exists_of_greatest?_eq_some isHead
  rcases or_eq_some_iff.mp here with isAssigned | ⟨_, bare⟩
  · obtain ⟨⟨outputs, call⟩, assignedHere, rfl⟩ := map_eq_some_iff.mp isAssigned
    obtain rfl := some.inj assigned
    obtain ⟨number, _, atNumber⟩ := exists_of_greatest?_eq_some assignedHere
    dsimp only at atNumber
    split at atNumber
    · cases atNumber
    · split at atNumber
      · rename_i rest shape
        obtain ⟨_, _, same⟩ := map_eq_some_iff.mp atNumber
        obtain ⟨rfl, rfl⟩ := Prod.mk.inj same
        refine ⟨rest, ?_⟩
        rw [← drop_drop, ← drop_drop]
        exact shape
      · cases atNumber
  · obtain ⟨_, _, rfl⟩ := map_eq_some_iff.mp bare
    cases assigned

/-- What may stand in a head is followed by a name, and by no other name. -/
def NamesOnce (tokens : List Token) : Prop :=
  ∀ token ∈ (tokens.dropWhile Token.isInHead).tail, token.kind ≠ .functionName

theorem NamesOnce.isInHead {front back : List Token} {name : Token}
    (once : NamesOnce (front ++ name :: back)) (isName : name.kind = .functionName) :
    ∀ token ∈ front, token.isInHead := by
  induction front with
  | nil => simp
  | cons first front ih =>
    by_cases inHead : first.isInHead
    · rw [NamesOnce, cons_append, dropWhile_cons_of_pos inHead] at once
      exact forall_mem_cons.mpr ⟨inHead, ih once⟩
    · rw [NamesOnce, cons_append, dropWhile_cons_of_neg inHead] at once
      exact absurd isName (once name (by simp))

section

variable {kind : TokenKind} {length : Nat} {pieces : List (TokenKind × Nat)} {text : Text}

theorem namesOnce_cons (inHead : Token.isInHead ⟨kind, text.take length⟩)
    (later : NamesOnce (cutPieces pieces (text.drop length))) :
    NamesOnce (cutPieces ((kind, length) :: pieces) text) := by
  rw [cutPieces]
  split
  · exact later
  · rwa [NamesOnce, dropWhile_cons_of_pos inHead]

theorem namesOnce_name (unnamed : ∀ piece ∈ pieces, piece.1 ≠ .functionName) :
    NamesOnce (cutPieces ((.functionName, length) :: pieces) text) := by
  have others : ∀ token ∈ cutPieces pieces (text.drop length), token.kind ≠ .functionName := by
    intro token member
    obtain ⟨length, inPieces⟩ := kind_mem_cutPieces token member
    exact unnamed _ inPieces
  rw [cutPieces]
  split
  · exact fun token member => others token ((dropWhile_suffix _).subset (mem_of_mem_tail member))
  · exact others

variable {before : Option Char} {step : LexStep}

theorem LexRule.headWithCall_namesOnce (applied : headWithCall before text = some step) :
    NamesOnce (cutPieces step.pieces text) := by
  obtain ⟨head, found, rfl⟩ := map_eq_some_iff.mp applied
  refine namesOnce_cons rfl ?_
  cases assigned : head.outputs with
  | none => exact namesOnce_name (by simp)
  | some outputs =>
    obtain ⟨rest, isEquals⟩ := equals_of_headLengths? found assigned
    refine namesOnce_cons rfl (namesOnce_cons rfl (namesOnce_cons ?_
      (namesOnce_cons rfl (namesOnce_name (by simp)))))
    rw [drop_drop, drop_drop, isEquals]
    rfl

theorem LexRule.headWithoutCall_namesOnce (applied : headWithoutCall before text = some step) :
    NamesOnce (cutPieces step.pieces text) := by
  unfold headWithoutCall at applied
  dsimp only at applied
  split at applied
  · split at applied
    · cases applied
      exact namesOnce_cons rfl (namesOnce_name (by simp))
    · cases applied
  · cases applied

private theorem LexMode.functionHead_keepsHeads :
    ∀ rule ∈ functionHead.rules, rule before text = some step →
      step.KeepsHeads .functionHead before text := by
  have keeps : step.Fits headKinds .code text → NamesOnce (cutPieces step.pieces text) →
      step.KeepsHeads .functionHead before text := by
    intro fits once
    constructor
    · intro front name back split isName
      rw [split] at once
      exact .inr ⟨rfl, once.isInHead isName⟩
    · intro isHead
      rw [fits.leads] at isHead
      cases isHead
    · intro keyword member isKeyword
      obtain ⟨length, inPieces⟩ := kind_mem_cutPieces keyword member
      have listed := fits.listed _ inPieces
      simp only [isFunctionKeyword, Bool.and_eq_true, beq_iff_eq] at isKeyword
      simp [headKinds, isKeyword.1] at listed
  simp only [rules, forall_mem_cons]
  exact ⟨fun applied => keeps (headWithCall_gives _ _ _ applied) (headWithCall_namesOnce applied),
    fun applied => keeps (headWithoutCall_gives _ _ _ applied) (headWithoutCall_namesOnce applied),
    by simp⟩

end

/-! ### Whole runs -/

variable {mode : LexMode} {before : Option Char} {text : Text}

theorem LexMode.step_keepsHeads (c : Char) (rest : Text) :
    (mode.step before c rest).KeepsHeads mode before (c :: rest) := by
  rw [step]
  cases applies : mode.rules.findSome? fun rule => rule before (c :: rest) with
  | none => exact LexStep.recover_keepsHeads c
  | some step =>
    obtain ⟨rule, member, applied⟩ := exists_of_findSome?_eq_some applies
    by_cases inHead : mode = .functionHead
    · subst inHead
      exact functionHead_keepsHeads rule member applied
    -- Outside of heads only one rule gives a keyword of a function and leads into a head.
    have known : ∀ entry ∈ mode.table, entry.1 = functionKeyword ∨ entry.1 = knownWord ∨
        .functionName ∉ entry.2.1 ∧ .keyword ∉ entry.2.1 ∧ entry.2.2 ≠ .functionHead := by
      cases mode <;> simp [table] at inHead ⊢
    obtain ⟨kinds, target, inTable, gives⟩ := exists_mem_table member
    have fits := gives _ _ _ applied
    rcases known _ inTable with rfl | rfl | ⟨unnamed, unkeyed, outside⟩
    · exact functionKeyword_keepsHeads applied
    · have isCode := (knownWord_gives _ _ _ applied).1.leads
      refine .of_isOrdinary (knownWord_isOrdinary applied) fun isHead => ?_
      exact absurd (isCode.symm.trans isHead) (by simp)
    · refine .of_isOrdinary (fun token member => ?_)
        fun isHead => absurd (fits.leads ▸ isHead) outside
      obtain ⟨length, inPieces⟩ := kind_mem_cutPieces token member
      have listed := fits.listed _ inPieces
      have notName : token.kind ≠ .functionName := fun isName => unnamed (isName ▸ listed)
      have notKeyword : token.kind ≠ .keyword := fun isKeyword => unkeyed (isKeyword ▸ listed)
      simp [isOrdinary, isFunctionKeyword, notName, notKeyword]

theorem LexMode.EndsInHead.append {tokens more : List Token} {next : LexMode}
    (leads : next = .functionHead → mode.EndsInHead tokens) (ends : next.EndsInHead more) :
    mode.EndsInHead (tokens ++ more) := by
  rcases ends with ⟨earlier, keyword, between, rfl, isKeyword, inHead⟩ | ⟨isHead, inHead⟩
  · exact .inl ⟨tokens ++ earlier, keyword, between, by simp, isKeyword, inHead⟩
  · rcases leads isHead with ⟨earlier, keyword, between, rfl, isKeyword, started⟩ | ⟨here, started⟩
    · exact .inl ⟨earlier, keyword, between ++ more, by simp, isKeyword,
        forall_mem_append.mpr ⟨started, inHead⟩⟩
    · exact .inr ⟨here, forall_mem_append.mpr ⟨started, inHead⟩⟩

/-- The token stands in the first part, or behind it. -/
theorem append_eq_append_cons {α : Type} {first second front back : List α} {item : α}
    (split : first ++ second = front ++ item :: back) :
    (∃ more, first = front ++ item :: more ∧ back = more ++ second) ∨
      ∃ more, front = first ++ more ∧ second = more ++ item :: back := by
  rcases append_eq_append_iff.mp split with ⟨more, isFront, isSecond⟩ | ⟨more, isFirst, isBack⟩
  · exact .inr ⟨more, isFront, isSecond⟩
  · cases more with
    | nil => exact .inr ⟨[], by simpa using isFirst.symm, isBack.symm⟩
    | cons other more =>
      obtain ⟨rfl, rfl⟩ := cons.inj isBack
      exact .inl ⟨more, isFirst, rfl⟩

/-- In front of each name of a function stands a keyword with its head, or the start of a run
within a head; each keyword stands at the start of a line. -/
theorem lexFrom_keepsHeads : ∀ front token back, lexFrom mode before text = front ++ token :: back →
    (token.kind = .functionName → mode.EndsInHead front) ∧
    (token.isFunctionKeyword →
      StartsHead ((Token.concat front).getLast?.or before) token (Token.concat back)) := by
  fun_induction lexFrom mode before text with
  | case1 => intro front token back split; simp at split
  | case2 mode before c rest step text ih =>
    intro front token back split
    have keeps : step.KeepsHeads mode before text := mode.step_keepsHeads c rest
    rcases append_eq_append_cons split with ⟨more, isTokens, isBack⟩ | ⟨more, rfl, isOthers⟩
    · refine ⟨keeps.names front token more isTokens, fun isKeyword => ?_⟩
      obtain ⟨alone, starts⟩ := keeps.keywords token (by simp [isTokens]) isKeyword
      rw [alone] at isTokens
      obtain ⟨rfl, rest⟩ : front = [] ∧ more = [] := by
        simpa [singleton_eq_append_iff] using isTokens
      rw [isBack, rest, nil_append, (scans_lexFrom _ _ _).concat_eq]
      exact starts
    · obtain ⟨named, keyed⟩ := ih more token back isOthers
      refine ⟨fun isName => (named isName).append keeps.leads, fun isKeyword => ?_⟩
      -- The character in front is read in an earlier step, or stands before the run.
      have taken : Token.concat (cutPieces step.pieces text) = text.take step.length := by
        have whole := (scans_lexFrom mode before text).concat_eq
        rw [lexFrom, Token.concat, flatMap_append, ← Token.concat, ← Token.concat,
          (scans_lexFrom _ _ _).concat_eq] at whole
        exact append_cancel_right (whole.trans (take_append_drop step.length text).symm)
      have advances : 0 < step.length := step.advances
      have notEmpty : text.take step.length ≠ [] := by
        simpa [text] using Nat.ne_of_gt advances
      rw [Token.concat, flatMap_append, ← Token.concat, ← Token.concat, taken, getLast?_append,
        Option.or_assoc, getLast?_eq_some_getLast notEmpty, Option.some_or,
        ← getLast?_eq_some_getLast notEmpty]
      exact keyed isKeyword

/-- In all code, each name of a function stands behind a keyword of a function, with nothing but
outputs, equals signs, blanks and errors between them; so between two names there is a keyword.
Each such keyword stands at the start of a line, behind blanks only, and in front of a blank or an
opening bracket. -/
theorem functions_named_in_heads (code : Text) :
    (∀ front name back, lex code = front ++ name :: back → name.kind = .functionName →
      EndsInHead front) ∧
    (∀ front name between other back, lex code = front ++ name :: (between ++ other :: back) →
      name.kind = .functionName → other.kind = .functionName →
        ∃ keyword ∈ between, keyword.isFunctionKeyword) ∧
    ∀ front keyword back, lex code = front ++ keyword :: back → keyword.isFunctionKeyword →
      StartsHead (Token.concat front).getLast? keyword (Token.concat back) := by
  have named : ∀ front name back, lex code = front ++ name :: back → name.kind = .functionName →
      EndsInHead front := by
    intro front name back split isName
    exact ((lexFrom_keepsHeads front name back split).1 isName).resolve_right nofun
  refine ⟨named, ?_, ?_⟩
  · intro front name between other back split isName isOther
    obtain ⟨earlier, keyword, inside, isFront, isKeyword, inHead⟩ :=
      named (front ++ name :: between) other back (by rw [split]; simp) isOther
    have distinct : ¬ name.isInHead ∧ ¬ name.isFunctionKeyword := by
      obtain ⟨kind, value⟩ := name
      obtain rfl : kind = .functionName := isName
      exact ⟨nofun, nofun⟩
    rcases append_eq_append_cons isFront with ⟨more, -, isInside⟩ | ⟨more, -, isBetween⟩
    · exact absurd (inHead name (by simp [isInside])) distinct.1
    · rcases cons_eq_append_iff.mp isBetween with ⟨-, isFirst⟩ | ⟨more, -, rfl⟩
      · exact absurd ((cons.inj isFirst).1 ▸ isKeyword) distinct.2
      · exact ⟨keyword, by simp, isKeyword⟩
  · intro front keyword back split isKeyword
    simpa using (lexFrom_keepsHeads front keyword back split).2 isKeyword

/-- Two heads, each with its keyword and its name. -/
theorem functions_named_in_heads_two :
    let head : List Token := [⟨.keyword, "function"⟩, ⟨.text, " "⟩]
    EndsInHead head ∧ (∃ keyword ∈ ⟨.whitespace, "\n"⟩ :: head, keyword.isFunctionKeyword) ∧
      StartsHead none ⟨.keyword, "function"⟩ " f\nfunction g\n" := by
  intro head
  have lexed : lex "function f\nfunction g\n" = head ++ ⟨.functionName, "f"⟩ ::
      ((⟨.whitespace, "\n"⟩ :: head) ++ ⟨.functionName, "g"⟩ :: [⟨.whitespace, "\n"⟩]) := by
    decide +kernel
  obtain ⟨named, apart, starts⟩ := functions_named_in_heads "function f\nfunction g\n"
  exact ⟨named head _ _ lexed rfl, apart head _ _ _ _ lexed rfl rfl, starts [] _ _ lexed rfl⟩

end MatlabDocs
