import MatlabDocs.Proofs.Class.ClassFiles

/-!
# Lists of methods

The methods of a block are read one after the other.  Reading a method leads exactly to the
first token behind its line end, so the next method is found where it stands, however deep
the body in between is nested.
-/

namespace MatlabDocs

open List MethodLayout

/-- The name of a method that reads or writes a property: `get` or `set`, alone or followed by
the name of the property. -/
def isAccessName (name : Text) : Bool :=
  (["get", "set"] : List Text).any fun word => name == word || name.startsWith (word ++ ".")

theorem Text.headD_splitOn (separator : Char) (text : Text) :
    (text.splitOn separator).headD [] = text.takeWhile (· != separator) := by
  induction text with
  | nil => rfl
  | cons c rest ih =>
    by_cases same : c = separator
    · simp [splitOn, same]
    · cases pieces : splitOn separator rest with
      | nil => simp_all [splitOn]
      | cons piece pieces' => simp_all [splitOn]

theorem Text.takeWhile_eq_iff {separator : Char} {word text : Text} (plain : separator ∉ word) :
    text.takeWhile (· != separator) = word ↔
      text = word ∨ text.startsWith (word ++ [separator]) := by
  have passes : ∀ c ∈ word, (c != separator) = true := by
    intro c member
    have different : c ≠ separator := fun same => plain (same ▸ member)
    simp [different]
  constructor
  · intro front
    have split := takeWhile_append_dropWhile (p := (· != separator)) (l := text)
    rw [front] at split
    cases back : text.dropWhile (· != separator) with
    | nil => exact .inl (by simpa [back] using split.symm)
    | cons c rest =>
      have stops : c = separator := by
        have head := head?_dropWhile_not (· != separator) text
        simpa [back] using head
      refine .inr (List.isPrefixOf_iff_prefix.mpr ⟨rest, ?_⟩)
      rw [← split, back, stops]
      simp
  · rintro (rfl | starts)
    · have whole := @takeWhile_append_of_pos _ _ text [] passes
      simpa using whole
    · obtain ⟨rest, rfl⟩ := List.isPrefixOf_iff_prefix.mp starts
      rw [append_assoc, takeWhile_append_of_pos passes]
      simp

theorem ClassState.isAccessMethod_eq (name : Text) : isAccessMethod name = isAccessName name := by
  have owner := Text.headD_splitOn '.' name
  have get := @Text.takeWhile_eq_iff '.' "get" name (by decide)
  have set := @Text.takeWhile_eq_iff '.' "set" name (by decide)
  rw [Bool.eq_iff_iff]
  simp only [isAccessMethod, isAccessName, owner, Bool.or_eq_true, beq_iff_eq, get, set,
    any_cons, any_nil, Bool.or_false]
  rfl

namespace MethodLayout

variable (method : MethodLayout)

def lineTokens : List Token :=
  method.tokens ++ [method.lineEnd.val]

def isDocumented : Bool :=
  !isAccessName method.bareName

def entry (module : Text) (attributes : Attributes) : Text × MethodDef :=
  (method.bareName, ⟨method.bareName, method.function module, attributes⟩)

def record (attributes : Attributes) (definition : ClassDef) : ClassDef :=
  if method.isDocumented then
    { definition with
      methods := definition.methods.insert method.bareName
        (method.entry definition.module attributes).2 }
  else definition

theorem isFunctionKeyword : Token.isFunctionKeyword ⟨.keyword, method.keyword⟩ := by
  simp [Token.isFunctionKeyword, method.isFunction]

theorem keyword_ne_ending : Token.isKeyword ⟨.keyword, method.keyword⟩ "end" = false := by
  have different : method.keyword ≠ ("end" : Text) := by
    intro same
    have stripped := method.isFunction
    rw [same] at stripped
    exact absurd stripped (by decide)
  simpa [Token.isKeyword] using different

end MethodLayout

namespace ClassState

variable {position : Nat} {definition : ClassDef} {notices : List Notice} {stop : Token}

theorem readMethod_lineTokens (method : MethodLayout) (attributes : Attributes) {gap : List Token}
    (spacing : ∀ token ∈ gap, isSpacing token) (rest : List Token)
    (notSpacing : isSpacing stop = false) :
    Consumes (readMethod attributes) (method.lineTokens ++ gap) (stop :: rest)
      (method.record attributes) := by
  intro position definition notices
  have split : method.lineTokens ++ gap ++ stop :: rest =
      method.tokens ++ method.lineEnd.val :: (gap ++ stop :: rest) := by
    simp [lineTokens]
  have length : (method.tokens ++ method.lineEnd.val :: (gap ++ stop :: rest)).length -
      (method.lineEnd.val :: (gap ++ stop :: rest)).length = method.tokens.length := by
    simp
  have behindSpacing : ∀ token ∈ method.lineEnd.val :: gap, isSpacing token := by
    intro token member
    rcases mem_cons.mp member with rfl | member
    · exact isSpacing_of_isNewline method.lineEnd.property
    · exact spacing token member
  have behind : ∀ definition, skipSpacing ⟨position + method.tokens.length,
      method.lineEnd.val :: (gap ++ stop :: rest), definition, notices⟩ =
      .ok ⟨position + (method.lineTokens ++ gap).length, stop :: rest, definition, notices⟩ := by
    intro definition
    have skipped := @skip_append_cons (position + method.tokens.length) definition notices
      (method.lineEnd.val :: gap) rest stop isSpacing behindSpacing notSpacing
    simpa [skipSpacing, lineTokens, Nat.add_assoc, Nat.add_comm gap.length] using skipped
  rw [split, readMethod]
  simp only [method.read_tokens, append_nil, function, length, take_left, isAccessMethod_eq]
  cases access : isAccessName method.bareName with
  | true =>
    rw [if_pos rfl, advance_append, behind]
    simp [record, isDocumented, access]
  | false =>
    rw [if_neg Bool.false_ne_true, modify, advance_append, behind]
    simp [record, isDocumented, access, entry, function]

theorem readMethodList_method {lead gap : List Token}
    (commentary : ∀ token ∈ lead, isCommentary token) (method : MethodLayout)
    (attributes : Attributes) (spacing : ∀ token ∈ gap, isSpacing token) (rest : List Token)
    (notSpacing : isSpacing stop = false) :
    readMethodList attributes
        ⟨position, lead ++ (method.lineTokens ++ gap ++ stop :: rest), definition, notices⟩ =
      readMethodList attributes
        ⟨position + (lead.length + (method.lineTokens ++ gap).length), stop :: rest,
          method.record attributes definition, notices⟩ := by
  let keyword : Token := ⟨.keyword, method.keyword⟩
  obtain ⟨next, more, tokens, notName⟩ : ∃ next more,
      method.lineTokens ++ gap ++ stop :: rest = keyword :: next :: more ∧
        (next.kind == .functionName) = false :=
    ⟨_, _, rfl, rfl⟩
  have isFunction : keyword.isFunctionKeyword := method.isFunctionKeyword
  have notEnd : keyword.isKeyword "end" = false := method.keyword_ne_ending
  have notPart : isSignaturePart keyword = false := by
    simp [isSignaturePart, keyword]
  have start := @skipCommentary_run position definition notices lead (next :: more)
    keyword commentary (by simp [isCommentary, isSpacing, Token.isComment, keyword])
  obtain ⟨first, goesOn, peeked⟩ := @exists_peek position definition notices lead (next :: more)
    keyword _ (fun token member => not_isKeyword_of_isCommentary (commentary token member) "end")
    fun _ => notEnd
  have read := readMethod_lineTokens method attributes spacing rest notSpacing
    (position + lead.length) definition notices
  rw [tokens] at read
  rw [tokens, readMethodList]
  simp only [peeked, Reads.ok_bind, goesOn, Bool.false_eq_true, if_false, start, peek_cons,
    atForeignMethod, notPart, isFunction, if_true, advance_one, notName, notEnd, read]
  have shorter : (stop :: rest).length < (lead ++ keyword :: next :: more).length := by
    rw [← tokens]
    simp only [length_append, length_cons, lineTokens]
    omega
  rw [progressing_of_lt shorter, Nat.add_assoc]

theorem not_isCommentary_of_isSignaturePart {part : Token} (isPart : isSignaturePart part) :
    isCommentary part = false := by
  simp only [isSignaturePart, Bool.or_eq_true, Bool.and_eq_true, beq_iff_eq] at isPart
  rcases isPart with (kind | kind) | ⟨kind, _⟩ <;>
    simp [isCommentary, isSpacing, Token.isComment, kind]

/-- Behind commentary, a part of the signature of a method that is defined elsewhere is passed
over with the spacing behind it. -/
theorem readMethodList_signaturePart {lead gap : List Token}
    (commentary : ∀ token ∈ lead, isCommentary token) {part : Token} (isPart : isSignaturePart part)
    (attributes : Attributes) (spacing : ∀ token ∈ gap, isSpacing token) (rest : List Token)
    (notSpacing : isSpacing stop = false) :
    readMethodList attributes
        ⟨position, lead ++ (part :: gap ++ stop :: rest), definition, notices⟩ =
      readMethodList attributes
        ⟨position + (lead.length + (part :: gap).length), stop :: rest, definition, notices⟩ := by
  have notEnd : part.isKeyword "end" = false :=
    beq_eq_false_iff_ne.mpr (ne_of_test isPart (by decide))
  have start := @skipCommentary_run position definition notices lead (gap ++ stop :: rest)
    part commentary (not_isCommentary_of_isSignaturePart isPart)
  obtain ⟨first, goesOn, peeked⟩ := @exists_peek position definition notices lead
    (gap ++ stop :: rest) part _
    (fun token member => not_isKeyword_of_isCommentary (commentary token member) "end")
    fun _ => notEnd
  have counted : countWhile? isSpacing ((part :: (gap ++ stop :: rest)).drop 1) = some gap.length :=
    countWhile?_append_cons spacing notSpacing
  have passed : advance ⟨position + lead.length, part :: (gap ++ stop :: rest), definition, notices⟩
      (1 + gap.length) = ⟨position + (lead.length + (part :: gap).length), stop :: rest, definition,
        notices⟩ := by
    simp [advance, Nat.add_comm 1, Nat.add_assoc]
  have shorter : (stop :: rest).length < (lead ++ part :: (gap ++ stop :: rest)).length := by
    simp only [length_append, length_cons]
    omega
  rw [cons_append, readMethodList, peeked, Reads.ok_bind,
    if_neg (Bool.eq_false_iff.mp goesOn), start, Reads.ok_bind, peek_cons, Reads.ok_bind]
  simp only [atForeignMethod, isPart, if_true, Reads.ok_bind, counted]
  rw [passed, progressing_of_lt shorter]

end ClassState

/-- What a method block is made of, item by item. -/
inductive MethodItem where
  | commentary (token : Token) (isCommentary : ClassState.isCommentary token)
  /-- A part of the signature of a method that is defined elsewhere. -/
  | signaturePart (token : Token) (isPart : ClassState.isSignaturePart token)
  | method (layout : MethodLayout)

namespace MethodItem

def tokens : MethodItem → List Token
  | commentary token _ => [token]
  | signaturePart token _ => [token]
  | method layout => layout.lineTokens

def entries (attributes : Attributes) (module : Text) : MethodItem → List (Text × MethodDef)
  | commentary _ _ => []
  | signaturePart _ _ => []
  | method layout => if layout.isDocumented then [layout.entry module attributes] else []

def listEntries (items : List MethodItem) (attributes : Attributes) (module : Text) :
    List (Text × MethodDef) :=
  items.flatMap (entries attributes module)

theorem listEntries_map_method (methods : List MethodLayout) (attributes : Attributes)
    (module : Text) :
    listEntries (methods.map method) attributes module =
      (methods.filter isDocumented).map fun layout =>
        layout.entry module attributes := by
  induction methods with
  | nil => rfl
  | cons layout methods ih =>
    simp only [listEntries, map_cons, flatMap_cons, entries] at ih ⊢
    rw [ih, filter_cons]
    split <;> rfl

end MethodItem

theorem MethodLayout.record_eq_extend (method : MethodLayout) (attributes : Attributes)
    (definition : ClassDef) :
    method.record attributes definition =
      definition.extend id ((MethodItem.method method).entries attributes) := by
  cases documented : method.isDocumented with
  | true =>
    simp [record, documented, ClassDef.extend, MethodItem.entries, Table.insertAll, entry]
  | false => simp [record, documented, ClassDef.extend, MethodItem.entries, Table.insertAll]

namespace ClassState

/-- A list of methods is read up to its `end`, or with the line end behind it. -/
def ReadsMethods (attributes : Attributes) (lineEnd : LineEndToken) (tokens : List Token)
    (entries : Text → List (Text × MethodDef)) : Prop :=
  ∃ passed left, passed ++ left = tokens ++ [Token.ending, lineEnd.val] ∧
    (∀ token ∈ left, isSpacing token) ∧
    ∀ tail, Consumes (readMethodList attributes) passed tail (·.extend id entries)

namespace ReadsMethods

variable {attributes : Attributes} {lineEnd : LineEndToken} {lead gap tokens : List Token}
variable {entries : Text → List (Text × MethodDef)}

/-- Directly behind a method the `end` is passed over alone, and behind commentary together
with its line end. -/
theorem of_commentary (commentary : ∀ token ∈ lead, isCommentary token) :
    ReadsMethods attributes lineEnd lead fun _ => [] := by
  have isEnd : Token.ending.isKeyword "end" = true := by decide
  cases lead with
  | nil =>
    refine ⟨[Token.ending], [lineEnd.val], rfl, lineEnd.isSpacing_of_mem, ?_⟩
    intro tail position definition notices
    rw [cons_append, readMethodList, peek_cons, Reads.ok_bind, if_pos isEnd]
    rfl
  | cons first lead =>
    refine ⟨first :: lead ++ [Token.ending, lineEnd.val], [], append_nil _, forall_mem_nil _, ?_⟩
    intro tail position definition notices
    have regrouped : first :: lead ++ [Token.ending, lineEnd.val] ++ tail =
        first :: lead ++ Token.ending :: lineEnd.val :: tail := by
      simp
    have goesOn := not_isKeyword_of_isCommentary (commentary first (by simp)) "end"
    have start := @skipCommentary_run position definition notices (first :: lead)
      (lineEnd.val :: tail) Token.ending commentary (by decide)
    have notForeign : atForeignMethod ⟨position + (first :: lead).length,
        Token.ending :: lineEnd.val :: tail, definition, notices⟩ Token.ending = .ok false := rfl
    rw [regrouped, readMethodList]
    simp only [cons_append, peek_cons, Reads.ok_bind, goesOn, Bool.false_eq_true, if_false]
    rw [← cons_append, start]
    simp only [Reads.ok_bind, peek_cons, notForeign, Bool.false_eq_true, if_false, isEnd, if_true]
    have ended : advance ⟨position + (first :: lead).length, Token.ending :: lineEnd.val :: tail,
        definition, notices⟩ 2 =
          ⟨position + (first :: lead ++ [Token.ending, lineEnd.val]).length, tail, definition,
            notices⟩ := by
      simp [advance, Nat.add_assoc]
    exact congrArg Except.ok ended

/-- What is read from the first token on that is no spacing. -/
def BehindSpacing (attributes : Attributes) (lineEnd : LineEndToken) (tokens : List Token)
    (entries : Text → List (Text × MethodDef)) : Prop :=
  ∃ gap kept, tokens = gap ++ kept ∧ (∀ token ∈ gap, isSpacing token) ∧
    (∀ first ∈ kept.head?, isSpacing first = false) ∧
    ReadsMethods attributes lineEnd kept entries

theorem behindSpacing (reads : ReadsMethods attributes lineEnd tokens entries)
    (starts : ∀ first ∈ tokens.head?, isSpacing first = false) :
    BehindSpacing attributes lineEnd tokens entries :=
  ⟨[], tokens, rfl, forall_mem_nil _, starts, reads⟩

theorem append (run : List Token) (new : Text → List (Text × MethodDef))
    (passes : ∀ gap stop rest, (∀ token ∈ gap, isSpacing token) → isSpacing stop = false →
      ∀ position definition notices,
        readMethodList attributes
            ⟨position, lead ++ (run ++ gap ++ stop :: rest), definition, notices⟩ =
          readMethodList attributes ⟨position + (lead.length + (run ++ gap).length), stop :: rest,
            definition.extend id new, notices⟩)
    (behind : BehindSpacing attributes lineEnd tokens entries) :
    ReadsMethods attributes lineEnd (lead ++ (run ++ tokens))
      fun module => new module ++ entries module := by
  obtain ⟨gap, kept, rfl, gapSpacing, starts, passed, left, split, leftSpacing, consumes⟩ := behind
  refine ⟨lead ++ (run ++ gap ++ passed), left, by simp [split], leftSpacing, ?_⟩
  intro tail position definition notices
  obtain ⟨first, others, front, notSpacing⟩ : ∃ first others,
      kept ++ [Token.ending, lineEnd.val] = first :: others ∧ isSpacing first = false := by
    cases kept with
    | nil => exact ⟨Token.ending, _, rfl, by decide⟩
    | cons first kept => exact ⟨first, _, rfl, starts first (by simp)⟩
  obtain ⟨rest, shape⟩ : ∃ rest, passed ++ tail = first :: rest := by
    cases passed with
    | nil =>
      have isLeft : left = first :: others := split.trans front
      have spacing := leftSpacing first (by simp [isLeft])
      rw [notSpacing] at spacing
      cases spacing
    | cons token passed =>
      rw [front, cons_append] at split
      exact ⟨passed ++ tail, by rw [(List.cons.inj split).1, cons_append]⟩
  have later := consumes tail (position + (lead.length + (run ++ gap).length))
    (definition.extend id new) notices
  have regrouped : lead ++ (run ++ gap ++ passed) ++ tail =
      lead ++ (run ++ gap ++ first :: rest) := by
    simp [← shape]
  rw [regrouped, passes gap first rest gapSpacing notSpacing, ← shape, later]
  simp only [ClassDef.extend, id_eq, Table.insertAll_append, length_append, Except.ok.injEq,
    ClassState.mk.injEq, and_true]
  omega

theorem method (commentary : ∀ token ∈ lead, isCommentary token) (layout : MethodLayout)
    (behind : BehindSpacing attributes lineEnd tokens entries) :
    ReadsMethods attributes lineEnd (lead ++ (layout.lineTokens ++ tokens))
      fun module => (MethodItem.method layout).entries attributes module ++ entries module := by
  refine append layout.lineTokens _ ?_ behind
  intro gap stop rest spacing notSpacing position definition notices
  rw [readMethodList_method commentary layout attributes spacing rest notSpacing,
    layout.record_eq_extend]

private theorem signaturePart (commentary : ∀ token ∈ lead, isCommentary token) {part : Token}
    (isPart : isSignaturePart part) (behind : BehindSpacing attributes lineEnd tokens entries) :
    ReadsMethods attributes lineEnd (lead ++ part :: tokens) entries := by
  refine append [part] (fun _ => []) ?_ behind
  intro gap stop rest spacing notSpacing position definition notices
  exact readMethodList_signaturePart commentary isPart attributes spacing rest notSpacing

end ReadsMethods

/-- The items of a method block are read in turn, behind commentary or behind the spacing that
the item in front of them ends with. -/
theorem readsMethods_items (items : List MethodItem) (attributes : Attributes)
    (lineEnd : LineEndToken) :
    (∀ lead, (∀ token ∈ lead, isCommentary token) →
      ReadsMethods attributes lineEnd (lead ++ items.flatMap MethodItem.tokens)
        (MethodItem.listEntries items attributes)) ∧
    ReadsMethods.BehindSpacing attributes lineEnd (items.flatMap MethodItem.tokens)
      (MethodItem.listEntries items attributes) := by
  induction items with
  | nil =>
    have atEnd : ∀ lead, (∀ token ∈ lead, isCommentary token) →
        ReadsMethods attributes lineEnd (lead ++ []) fun _ => [] := by
      intro lead commentary
      rw [append_nil]
      exact .of_commentary commentary
    exact ⟨atEnd, (atEnd [] (forall_mem_nil _)).behindSpacing (by simp)⟩
  | cons item items ih =>
    obtain ⟨behindCommentary, behindSpacing⟩ := ih
    cases item with
    | commentary token isCommentary =>
      have atToken : ∀ lead, (∀ token ∈ lead, ClassState.isCommentary token) →
          ReadsMethods attributes lineEnd
            (lead ++ token :: items.flatMap MethodItem.tokens)
            (MethodItem.listEntries items attributes) := by
        intro lead commentary
        rw [append_cons]
        refine behindCommentary (lead ++ [token]) ?_
        intro other member
        rcases mem_append.mp member with earlier | last
        · exact commentary other earlier
        · exact mem_singleton.mp last ▸ isCommentary
      refine ⟨atToken, ?_⟩
      by_cases spacing : isSpacing token
      · obtain ⟨gap, kept, split, gapSpacing, starts, reads⟩ := behindSpacing
        refine ⟨token :: gap, kept, ?_, ?_, starts, reads⟩
        · rw [flatMap_cons, split]
          rfl
        · exact forall_mem_cons.mpr ⟨spacing, gapSpacing⟩
      · exact (atToken [] (forall_mem_nil _)).behindSpacing (by simp [spacing])
    | signaturePart token isPart =>
      have atToken := fun lead (commentary : ∀ token ∈ lead, isCommentary token) =>
        ReadsMethods.signaturePart commentary isPart behindSpacing
      have stops := not_isCommentary_of_isSignaturePart isPart
      simp only [isCommentary, Bool.or_eq_false_iff] at stops
      exact ⟨atToken, (atToken [] (forall_mem_nil _)).behindSpacing (by simp [stops])⟩
    | method layout =>
      have atMethod := fun lead (commentary : ∀ token ∈ lead, isCommentary token) =>
        ReadsMethods.method commentary layout behindSpacing
      refine ⟨atMethod, (atMethod [] (forall_mem_nil _)).behindSpacing fun first member => ?_⟩
      have isKeyword : first = ⟨.keyword, layout.keyword⟩ := (Option.some.inj member).symm
      simp [isKeyword, isSpacing]

end ClassState

end MatlabDocs
