import MatlabDocs.Definition.Function

/-!
# Well-nested bodies

The body of a function is well nested when every keyword that opens a block has its own
`end` outside of brackets, when round and curly brackets are closed, and when every other
`end` is an index, inside of brackets.  The grammar below says so without counters.  The
scan for the end of a body, which only counts, passes over such a body as a whole.
-/

namespace MatlabDocs

open List Token

namespace Token

variable (token : Token)

/-- The keyword of a block or of a nested function. -/
def opensBlock : Bool :=
  (token.kind == .keyword && FunctionDef.blockKeywords.contains token.value) ||
    token.isFunctionKeyword

def opensBracket : Bool :=
  token.isPunctuation "(" || token.isPunctuation "\x7b"

def closesBracket : Bool :=
  token.isPunctuation ")" || token.isPunctuation "\x7d"

/-- A token that neither opens nor closes anything. -/
def isPlain : Bool :=
  !token.opensBlock && !token.isKeyword "end" && !token.opensBracket && !token.closesBracket

def ending : Token :=
  ⟨.keyword, "end"⟩

theorem isPlain_of_kind {token : Token} (notKeyword : token.kind ≠ .keyword)
    (notPunctuation : token.kind ≠ .punctuation) : token.isPlain := by
  obtain ⟨kind, value⟩ := token
  simp_all [isPlain, opensBlock, isFunctionKeyword, isKeyword, opensBracket, closesBracket,
    isPunctuation]

end Token

/-- What may stand between brackets: there an `end` is an index. -/
inductive WellIndexed : List Token → Prop where
  | nil : WellIndexed []
  | plain {token : Token} {rest : List Token} :
      token.isPlain → WellIndexed rest → WellIndexed (token :: rest)
  | index {rest : List Token} :
      WellIndexed rest → WellIndexed (Token.ending :: rest)
  | brackets {opening closing : Token} {inner rest : List Token} :
      opening.opensBracket → WellIndexed inner → closing.closesBracket → WellIndexed rest →
      WellIndexed (opening :: (inner ++ closing :: rest))

/-- A body whose blocks and brackets are all closed. -/
inductive WellNested : List Token → Prop where
  | nil : WellNested []
  | plain {token : Token} {rest : List Token} :
      token.isPlain → WellNested rest → WellNested (token :: rest)
  | brackets {opening closing : Token} {inner rest : List Token} :
      opening.opensBracket → WellIndexed inner → closing.closesBracket → WellNested rest →
      WellNested (opening :: (inner ++ closing :: rest))
  | block {opening : Token} {inner rest : List Token} :
      opening.opensBlock → WellNested inner → WellNested rest →
      WellNested (opening :: (inner ++ Token.ending :: rest))

namespace FunctionDef

namespace Nesting

variable {nesting : Nesting} {token : Token}

theorem after_of_isPlain (plain : token.isPlain) : nesting.after token = nesting := by
  simp only [Token.isPlain, Token.opensBlock, Token.opensBracket, Token.closesBracket,
    Bool.and_eq_true, Bool.not_eq_true', Bool.or_eq_false_iff] at plain
  obtain ⟨⟨⟨⟨notBlock, notFunction⟩, notEnd⟩, notOpening⟩, notClosing⟩ := plain
  simp only [after, notBlock, notFunction, notEnd, notOpening, notClosing, Bool.false_and,
    Bool.or_false, Bool.false_eq_true, if_false]

theorem after_of_opensBlock (opens : token.opensBlock) :
    nesting.after token = { nesting with blocks := nesting.blocks + 1 } := by
  rcases Bool.or_eq_true _ _ ▸ opens with block | function
  · rw [after, if_pos block]
  · by_cases block : (token.kind == .keyword && blockKeywords.contains token.value) = true
    · rw [after, if_pos block]
    · rw [after, if_neg block, if_pos function]

theorem after_ending_outside (outside : nesting.brackets = 0) :
    nesting.after Token.ending = { nesting with blocks := nesting.blocks - 1 } := by
  have isEnd : (Token.ending.isKeyword "end" && nesting.brackets == 0) = true := by
    simp [Token.ending, Token.isKeyword, outside]
  rw [after, if_neg (by decide), if_neg (by decide), if_pos isEnd]

theorem after_ending_inside (inside : nesting.brackets ≠ 0) :
    nesting.after Token.ending = nesting := by
  have isIndex : ¬ (Token.ending.isKeyword "end" && nesting.brackets == 0) = true := by
    simp [inside]
  rw [after, if_neg (by decide), if_neg (by decide), if_neg isIndex, if_neg (by decide),
    if_neg (by decide)]

theorem after_of_opensBracket (opens : token.opensBracket) :
    nesting.after token = { nesting with brackets := nesting.brackets + 1 } := by
  simp only [Token.opensBracket, Token.isPunctuation, Bool.or_eq_true, beq_iff_eq] at opens
  rcases opens with rfl | rfl <;>
    simp [after, isFunctionKeyword, isKeyword, isPunctuation]

theorem after_of_closesBracket (closes : token.closesBracket) :
    nesting.after token = { nesting with brackets := nesting.brackets - 1 } := by
  simp only [Token.closesBracket, Token.isPunctuation, Bool.or_eq_true, beq_iff_eq] at closes
  rcases closes with rfl | rfl <;>
    simp [after, isFunctionKeyword, isKeyword, isPunctuation]

end Nesting

/-- The scan for the end of a body, from a list that starts with the current token. -/
def scanBody (nesting : Nesting) : List Token → List Token
  | [] => []
  | current :: rest => afterBody nesting current rest

theorem scanBody_cons {nesting : Nesting} {current : Token} {rest : List Token}
    (isOpen : (nesting.after current).blocks ≠ 0) (more : rest ≠ []) :
    scanBody nesting (current :: rest) = scanBody (nesting.after current) rest := by
  cases rest with
  | nil => exact absurd rfl more
  | cons next rest => simp [scanBody, afterBody, isOpen]

/-- Inside of brackets the scan comes back to the same counters. -/
private theorem scanBody_wellIndexed {inner tail : List Token} (wellIndexed : WellIndexed inner)
    (more : tail ≠ []) {nesting : Nesting} (isOpen : nesting.blocks ≠ 0)
    (inside : 0 < nesting.brackets) :
    scanBody nesting (inner ++ tail) = scanBody nesting tail := by
  induction wellIndexed generalizing nesting tail with
  | nil => rfl
  | @plain token rest plain _ ih =>
    have same : nesting.after token = nesting := Nesting.after_of_isPlain plain
    rw [cons_append, scanBody_cons (by rwa [same]) (by simp [more]), same,
      ih more isOpen inside]
  | @index rest _ ih =>
    have same : nesting.after Token.ending = nesting :=
      Nesting.after_ending_inside (by omega)
    rw [cons_append, scanBody_cons (by rwa [same]) (by simp [more]), same,
      ih more isOpen inside]
  | @brackets opening closing inner rest opens _ closes _ innerInduction restInduction =>
    let deeper : Nesting := { nesting with brackets := nesting.brackets + 1 }
    have enter : nesting.after opening = deeper := Nesting.after_of_opensBracket opens
    have leave : deeper.after closing = nesting := by
      simp [deeper, Nesting.after_of_closesBracket closes]
    have between : scanBody deeper (inner ++ closing :: (rest ++ tail)) =
        scanBody deeper (closing :: (rest ++ tail)) :=
      innerInduction (by simp) isOpen (by simp only [deeper]; omega)
    rw [cons_append, scanBody_cons (by rwa [enter]) (by simp), enter,
      append_assoc, cons_append, between,
      scanBody_cons (by rwa [leave]) (by simp [more]), leave,
      restInduction more isOpen inside]

/-- The scan passes over a well-nested body, as long as the block around it is open. -/
private theorem scanBody_wellNested {body tail : List Token} (wellNested : WellNested body)
    (more : tail ≠ []) {blocks : Nat} (isOpen : blocks ≠ 0) :
    scanBody ⟨blocks, 0⟩ (body ++ tail) = scanBody ⟨blocks, 0⟩ tail := by
  induction wellNested generalizing blocks tail with
  | nil => rfl
  | @plain token rest plain _ ih =>
    have same : Nesting.after ⟨blocks, 0⟩ token = ⟨blocks, 0⟩ :=
      Nesting.after_of_isPlain plain
    rw [cons_append, scanBody_cons (by rwa [same]) (by simp [more]), same,
      ih more isOpen]
  | @brackets opening closing inner rest opens wellIndexed closes _ ih =>
    have enter : Nesting.after ⟨blocks, 0⟩ opening = ⟨blocks, 1⟩ :=
      Nesting.after_of_opensBracket opens
    have leave : Nesting.after ⟨blocks, 1⟩ closing = ⟨blocks, 0⟩ :=
      Nesting.after_of_closesBracket closes
    rw [cons_append, scanBody_cons (by rwa [enter]) (by simp), enter,
      append_assoc, cons_append,
      scanBody_wellIndexed wellIndexed (by simp) isOpen (by simp),
      scanBody_cons (by rwa [leave]) (by simp [more]), leave, ih more isOpen]
  | @block opening inner rest opens _ _ innerInduction restInduction =>
    have enter : Nesting.after ⟨blocks, 0⟩ opening = ⟨blocks + 1, 0⟩ :=
      Nesting.after_of_opensBlock opens
    have leave : Nesting.after ⟨blocks + 1, 0⟩ ending = ⟨blocks, 0⟩ :=
      Nesting.after_ending_outside rfl
    rw [cons_append, scanBody_cons (by simp [enter]) (by simp), enter,
      append_assoc, cons_append,
      innerInduction (by simp) (Nat.succ_ne_zero blocks),
      scanBody_cons (by rwa [leave]) (by simp [more]), leave, restInduction more isOpen]

theorem scanBody_ending {body rest : List Token} {next : Token} (wellNested : WellNested body) :
    scanBody ⟨1, 0⟩ (body ++ Token.ending :: next :: rest) = next :: rest := by
  have last : Nesting.after ⟨1, 0⟩ Token.ending = ⟨0, 0⟩ := Nesting.after_ending_outside rfl
  rw [scanBody_wellNested wellNested (by simp) (by simp)]
  simp [scanBody, afterBody, last]

end FunctionDef

theorem WellNested.dropWhile {body : List Token} {test : Token → Bool}
    (wellNested : WellNested body) (plain : ∀ token, test token → token.isPlain) :
    WellNested (body.dropWhile test) := by
  have stops : ∀ {token : Token}, token.isPlain = false → ¬test token := by
    intro token notPlain passes
    simp [plain token passes] at notPlain
  induction wellNested with
  | nil => exact .nil
  | @plain token rest isPlain rest' ih =>
    rw [dropWhile_cons]
    split
    · exact ih
    · exact .plain isPlain rest'
  | @brackets opening closing inner rest opens wellIndexed closes rest' _ =>
    rw [dropWhile_cons_of_neg (stops (by simp [Token.isPlain, opens]))]
    exact .brackets opens wellIndexed closes rest'
  | @block opening inner rest opens inner' rest' _ _ =>
    rw [dropWhile_cons_of_neg (stops (by simp [Token.isPlain, opens]))]
    exact .block opens inner' rest'

end MatlabDocs
