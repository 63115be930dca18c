import MatlabDocs.Proofs.Token.Normalized
import MatlabDocs.Proofs.Token.RuleExtent

/-!
# Scanning without loss

A scan of code is a finite sequence of steps.  In each the first rule of the mode that applies
takes a piece of the code, which its tokens fill without a gap; where no rule applies, a line
feed leads back to plain code and any other character is an error.  Every code has exactly
one scan.  So the lexer always ends, none of its tokens is empty, and together they are the
code.
-/

namespace MatlabDocs

open List

/-- The tokens fill the text, each with as many characters as its piece says; a piece without
characters has no token. -/
inductive Fills : List (TokenKind × Nat) → Text → List Token → Prop where
  | nil : Fills [] [] []
  | empty {kind : TokenKind} {pieces : List (TokenKind × Nat)} {text : Text}
      {tokens : List Token} : Fills pieces text tokens → Fills ((kind, 0) :: pieces) text tokens
  | piece {kind : TokenKind} {value : Text} {pieces : List (TokenKind × Nat)} {text : Text}
      {tokens : List Token} : value ≠ [] → Fills pieces text tokens →
      Fills ((kind, value.length) :: pieces) (value ++ text) (⟨kind, value⟩ :: tokens)

/-- The scans of the code from a place on, in the given mode and behind the given character. -/
inductive Scans : LexMode → Option Char → Text → List Token → Prop where
  | done {mode : LexMode} {before : Option Char} :
      (∀ rule ∈ mode.rules, rule before [] = none) → Scans mode before [] []
  | rule {mode : LexMode} {before : Option Char} {earlier later : List LexRule} {first : LexRule}
      {step : LexStep} {taken rest : Text} {tokens others : List Token} :
      mode.rules = earlier ++ first :: later →
      (∀ rule ∈ earlier, rule before (taken ++ rest) = none) →
      first before (taken ++ rest) = some step →
      Fills step.pieces taken tokens →
      Scans step.mode taken.getLast? rest others →
      Scans mode before (taken ++ rest) (tokens ++ others)
  | lineFeed {mode : LexMode} {before : Option Char} {rest : Text} {others : List Token} :
      (∀ rule ∈ mode.rules, rule before ('\n' :: rest) = none) →
      Scans .code (some '\n') rest others →
      Scans mode before ('\n' :: rest) (⟨.whitespace, ['\n']⟩ :: others)
  | error {mode : LexMode} {before : Option Char} {c : Char} {rest : Text}
      {others : List Token} :
      c ≠ '\n' → (∀ rule ∈ mode.rules, rule before (c :: rest) = none) →
      Scans mode (some c) rest others →
      Scans mode before (c :: rest) (⟨.error, [c]⟩ :: others)

namespace Fills

variable {pieces : List (TokenKind × Nat)} {text : Text} {tokens : List Token}

section

variable (fills : Fills pieces text tokens)
include fills

theorem length_eq : text.length = piecesLength pieces := by
  induction fills with
  | nil => rfl
  | empty _ ih => simp [piecesLength, ih]
  | piece _ _ ih => simp [piecesLength, ih]

theorem concat_eq : Token.concat tokens = text := by
  induction fills with
  | nil => rfl
  | empty _ ih => exact ih
  | piece _ _ ih =>
    rw [← ih]
    rfl

theorem value_ne_nil : ∀ token ∈ tokens, token.value ≠ [] := by
  induction fills with
  | nil => simp
  | empty _ ih => exact ih
  | piece notEmpty _ ih => exact forall_mem_cons.mpr ⟨notEmpty, ih⟩

theorem append {morePieces : List (TokenKind × Nat)} {moreText : Text} {moreTokens : List Token}
    (more : Fills morePieces moreText moreTokens) :
    Fills (pieces ++ morePieces) (text ++ moreText) (tokens ++ moreTokens) := by
  induction fills with
  | nil => exact more
  | empty _ ih => exact .empty ih
  | piece notEmpty _ ih =>
    rw [append_assoc]
    exact .piece notEmpty ih

theorem cutPieces_eq (rest : Text) : cutPieces pieces (text ++ rest) = tokens := by
  induction fills with
  | nil => rfl
  | empty _ ih => simp [cutPieces, ih]
  | piece notEmpty _ ih => simp [cutPieces, ih, notEmpty]

end

end Fills

theorem fills_cutPieces {pieces : List (TokenKind × Nat)} {text : Text}
    (within : piecesLength pieces ≤ text.length) :
    Fills pieces (text.take (piecesLength pieces)) (cutPieces pieces text) := by
  induction pieces generalizing text with
  | nil => exact .nil
  | cons piece pieces ih =>
    obtain ⟨kind, length⟩ := piece
    rw [piecesLength] at within
    have laterFills := @ih (text.drop length) (by rw [length_drop]; omega)
    have split : text.take (piecesLength ((kind, length) :: pieces)) =
        text.take length ++ (text.drop length).take (piecesLength pieces) := by
      rw [piecesLength, take_add]
    rw [split]
    by_cases empty : text.take length = []
    · have noCharacters : length = 0 := by
        have lengths := congrArg List.length empty
        rw [length_take, length_nil] at lengths
        omega
      subst noCharacters
      simpa [cutPieces] using Fills.empty laterFills
    · have taken : (text.take length).length = length := by
        rw [length_take]
        omega
      have filled := @Fills.piece kind (text.take length) _ _ _ empty laterFills
      rw [taken] at filled
      simpa [cutPieces, empty] using filled

section

variable {mode : LexMode} {before : Option Char} {step : LexStep}

theorem lexFrom_of_findSome? {text : Text}
    (applies : (mode.rules.findSome? fun rule => rule before text) = some step)
    (notEmpty : text ≠ []) :
    lexFrom mode before text = cutPieces step.pieces text ++
      lexFrom step.mode (text.take step.length).getLast? (text.drop step.length) := by
  obtain ⟨c, rest, rfl⟩ := exists_cons_of_ne_nil notEmpty
  have chosen : mode.step before c rest = step := by
    rw [LexMode.step, applies, Option.getD_some]
  rw [lexFrom, chosen]

/-- The tokens that fill the pieces of the first rule that applies come first. -/
theorem lexFrom_of_fills {taken rest : Text} {tokens : List Token}
    (applies : (mode.rules.findSome? fun rule => rule before (taken ++ rest)) = some step)
    (fills : Fills step.pieces taken tokens) :
    lexFrom mode before (taken ++ rest) = tokens ++ lexFrom step.mode taken.getLast? rest := by
  have length : taken.length = step.length := fills.length_eq
  have advances : 0 < taken.length := length ▸ step.advances
  have notEmpty : taken ++ rest ≠ [] := by
    intro empty
    simp [(append_eq_nil_iff.mp empty).1] at advances
  rw [lexFrom_of_findSome? applies notEmpty, fills.cutPieces_eq, ← length, take_left, drop_left]

theorem lexFrom_of_eq_none {c : Char} {rest : Text}
    (applies : ∀ rule ∈ mode.rules, rule before (c :: rest) = none) :
    lexFrom mode before (c :: rest) =
      if c = '\n' then ⟨.whitespace, [c]⟩ :: lexFrom .code (some c) rest
      else ⟨.error, [c]⟩ :: lexFrom mode (some c) rest := by
  have recovered : mode.step before c rest = .recover mode c := by
    rw [LexMode.step, findSome?_eq_none_iff.mpr applies, Option.getD_none]
  rw [lexFrom, recovered, LexStep.recover]
  split <;> simp [LexStep.single, LexStep.length, cutPieces, piecesLength]

theorem fills_of_findSome? {text : Text}
    (applies : (mode.rules.findSome? fun rule => rule before text) = some step) :
    Fills step.pieces (text.take step.length) (cutPieces step.pieces text) := by
  obtain ⟨rule, member, applied⟩ := exists_of_findSome?_eq_some applies
  exact fills_cutPieces (mode.rules_staysWithin rule member before text step applied)

end

/-- What the lexer gives is a scan. -/
theorem scans_lexFrom (mode : LexMode) (before : Option Char) (text : Text) :
    Scans mode before text (lexFrom mode before text) := by
  induction length : text.length using Nat.strongRecOn generalizing mode before text with
  | ind bound ih =>
    cases text with
    | nil =>
      rw [lexFrom]
      exact .done fun rule member => (mode.rules_staysWithin rule member).eq_none_of_nil before
    | cons c rest =>
      cases applies : mode.rules.findSome? fun rule => rule before (c :: rest) with
      | some step =>
        have advances : 0 < step.length := step.advances
        have shorter : ((c :: rest).drop step.length).length < bound := by
          rw [length_drop, ← length, length_cons]
          omega
        obtain ⟨earlier, first, later, order, applied, failed⟩ :=
          findSome?_eq_some_iff.mp applies
        have split : (c :: rest).take step.length ++ (c :: rest).drop step.length =
            c :: rest := take_append_drop _ _
        rw [lexFrom_of_findSome? applies (cons_ne_nil c rest)]
        rw [← split] at applied failed
        have scan := Scans.rule order failed applied (fills_of_findSome? applies)
          (ih _ shorter _ _ _ rfl)
        rwa [split] at scan
      | none =>
        have failed := findSome?_eq_none_iff.mp applies
        have shorter : rest.length < bound := by
          rw [← length, length_cons]
          omega
        rw [lexFrom_of_eq_none failed]
        split
        · rename_i isLineFeed
          subst isLineFeed
          exact .lineFeed failed (ih _ shorter _ _ _ rfl)
        · rename_i other
          exact .error other failed (ih _ shorter _ _ _ rfl)

namespace Scans

variable {mode : LexMode} {before : Option Char} {text : Text} {tokens : List Token}

/-- There is only one scan. -/
theorem lexFrom_eq (scan : Scans mode before text tokens) : lexFrom mode before text = tokens := by
  induction scan with
  | done => rw [lexFrom]
  | @rule mode before earlier later first step taken rest tokens others order failed applied
      fills _ ih =>
      have applies : (mode.rules.findSome? fun rule => rule before (taken ++ rest)) = some step :=
        findSome?_eq_some_iff.mpr ⟨earlier, first, later, order, applied, failed⟩
      rw [lexFrom_of_fills applies fills, ih]
  | lineFeed failed _ ih => rw [lexFrom_of_eq_none failed, if_pos rfl, ih]
  | error other failed _ ih => rw [lexFrom_of_eq_none failed, if_neg other, ih]

theorem iff_eq_lexFrom : Scans mode before text tokens ↔ tokens = lexFrom mode before text := by
  constructor
  · intro scan
    exact scan.lexFrom_eq.symm
  · rintro rfl
    exact scans_lexFrom mode before text

theorem concat_eq (scan : Scans mode before text tokens) : Token.concat tokens = text := by
  induction scan with
  | done => rfl
  | rule _ _ _ fills _ ih =>
    rw [Token.concat, flatMap_append, ← Token.concat, ← Token.concat, fills.concat_eq,
      ih]
  | lineFeed _ _ ih =>
    rw [← ih]
    rfl
  | error _ _ _ ih =>
    rw [← ih]
    rfl

theorem value_ne_nil (scan : Scans mode before text tokens) :
    ∀ token ∈ tokens, token.value ≠ [] := by
  induction scan with
  | done => simp
  | rule _ _ _ fills _ ih =>
    exact forall_mem_append.mpr ⟨fills.value_ne_nil, ih⟩
  | lineFeed _ _ ih => exact forall_mem_cons.mpr ⟨by simp, ih⟩
  | error _ _ _ ih => exact forall_mem_cons.mpr ⟨by simp, ih⟩

end Scans

/-- The lexer ends on every code with the only scan there is.  No token is empty, and together
the tokens are the body of the code, that is without mark, with plain line ends and
without the line feeds around it, and a line feed. -/
theorem lex_loses_nothing (code : Text) :
    (∀ tokens, Scans .code none (normalizeCode code) tokens ↔ tokens = lex code) ∧
    (∀ token ∈ lex code, token.value ≠ []) ∧
    ∃ front body back : Text,
      Text.replace "\r" "\n" (Text.replace "\r\n" "\n" (withoutMark code)) =
        front ++ body ++ back ∧
      (∀ c ∈ front ++ back, c = '\n') ∧
      body.head? ≠ some '\n' ∧ body.getLast? ≠ some '\n' ∧
      normalizeCode code = body ++ ['\n'] ∧
      Token.concat (lex code) = body ++ ['\n'] := by
  have scan : Scans .code none (normalizeCode code) (lex code) := scans_lexFrom _ _ _
  refine ⟨fun tokens => Scans.iff_eq_lexFrom, scan.value_ne_nil, ?_⟩
  obtain ⟨front, back, split, lineFeeds, head, last⟩ := Text.exists_append_trim_append (· == '\n')
    (Text.replace "\r" "\n" (Text.replace "\r\n" "\n" (withoutMark code)))
  refine ⟨front, _, back, split, ?_, ?_, ?_, normalizeCode_eq code, ?_⟩
  · intro c member
    exact eq_of_beq (lineFeeds c member)
  · intro starts
    exact absurd (head '\n' starts) (by decide)
  · intro ends
    exact absurd (last '\n' ends) (by decide)
  · rw [scan.concat_eq, normalizeCode_eq]

/-- Text in a quote that is left open is kept character by character. -/
theorem lex_loses_nothing_openQuote :
    (⟨.error, "a"⟩ : Token) ∈ lex "\r\nx=\x27a" ∧ (⟨.error, "a"⟩ : Token).value ≠ [] ∧
      Scans .code none (normalizeCode "\r\nx=\x27a") (lex "\r\nx=\x27a") :=
  have member : (⟨.error, "a"⟩ : Token) ∈ lex "\r\nx=\x27a" := by decide +kernel
  have lossless := lex_loses_nothing "\r\nx=\x27a"
  ⟨member, lossless.2.1 _ member, (lossless.1 _).mpr rfl⟩

end MatlabDocs
