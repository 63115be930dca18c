import MatlabDocs.Proofs.Function.SignatureLayout
import MatlabDocs.Proofs.Function.WellNested

/-!
# Methods as they are laid out

A method in the usual layout is a signature, comment lines, a well-nested body and an `end`
on its own line.  Such a method is read as it stands: each part of it ends up in the
definition, and the tokens that remain are those from its line end on.
-/

namespace MatlabDocs

open List

namespace Token

/-- A blank, a tab, a line end, or white space of any length. -/
def isFiller (token : Token) : Bool :=
  token.kind == .whitespace || token.isIndent || token.isNewline

variable {token : Token}

theorem isIndent_iff : token.isIndent ↔ token = ⟨.text, [' ']⟩ ∨ token = ⟨.text, ['\t']⟩ := by
  simp [isIndent]

theorem isNewline_iff :
    token.isNewline ↔ token = ⟨.text, ['\n']⟩ ∨ token = ⟨.whitespace, ['\n']⟩ := by
  obtain ⟨kind, value⟩ := token
  simp only [isNewline, Bool.and_eq_true, Bool.or_eq_true, beq_iff_eq, Token.mk.injEq]
  constructor
  · rintro ⟨text | whitespace, rfl⟩
    · exact .inl ⟨text, rfl⟩
    · exact .inr ⟨whitespace, rfl⟩
  · rintro (⟨rfl, rfl⟩ | ⟨rfl, rfl⟩)
    · exact ⟨.inl rfl, rfl⟩
    · exact ⟨.inr rfl, rfl⟩

theorem isFiller_kind (filler : token.isFiller) :
    token.kind = .text ∨ token.kind = .whitespace := by
  simp only [isFiller, Bool.or_eq_true, isIndent_iff, isNewline_iff, beq_iff_eq] at filler
  rcases filler with (whitespace | rfl | rfl) | rfl | rfl
  · exact .inr whitespace
  · exact .inl rfl
  · exact .inl rfl
  · exact .inl rfl
  · exact .inr rfl

theorem isPlain_of_isFiller (filler : token.isFiller) : token.isPlain := by
  rcases isFiller_kind filler with kind | kind <;>
    exact isPlain_of_kind (by simp [kind]) (by simp [kind])

theorem not_isComment_of_isFiller (filler : token.isFiller) : token.isComment = false := by
  rcases isFiller_kind filler with kind | kind <;> simp [isComment, kind]

end Token

abbrev IndentToken := { token : Token // token.isIndent }

theorem isIndent_of_mem_unattach (indent : List IndentToken) :
    ∀ token ∈ indent.unattach, token.isIndent := by
  intro token member
  obtain ⟨isIndent, _⟩ := mem_unattach.mp member
  exact isIndent

abbrev LineEndToken := { token : Token // token.isNewline }

structure CommentLine where
  indent : List IndentToken
  comment : Text
  lineEnd : LineEndToken

def CommentLine.tokens (line : CommentLine) : List Token :=
  line.indent.unattach ++ [⟨.comment, line.comment⟩, line.lineEnd.val]

def CommentLine.text (line : CommentLine) : Text :=
  line.comment.dropWhile (· == '%') ++ ['\n']

/-- A body does not start with a comment, which would belong to the comment lines above it. -/
def StartsUncommented (body : List Token) : Prop :=
  ∀ token ∈ (body.dropWhile Token.isFiller).head?, token.isComment = false

theorem startsUncommented_nil : StartsUncommented [] := by
  simp [StartsUncommented]

/-- The parts of a method in the order in which they stand. -/
structure MethodLayout extends SignatureLayout where
  isFunction : keyword.strip = ("function" : Text)
  afterSignature : Text
  comments : List CommentLine
  body : List Token
  wellNested : WellNested body
  startsUncommented : StartsUncommented body
  lineEnd : LineEndToken

namespace MethodLayout

theorem strip_function : Text.strip "function" = ("function" : Text) :=
  rfl

variable (method : MethodLayout)

def bodyTokens : List Token :=
  ⟨.whitespace, method.afterSignature⟩ ::
    (method.comments.flatMap CommentLine.tokens ++ (method.body ++ [Token.ending]))

def tokens : List Token :=
  method.signatureTokens ++ method.bodyTokens

def docstring : Text :=
  method.comments.flatMap CommentLine.text

def function (module : Text) : FunctionDef where
  name := some method.bareName
  module
  tokens := method.tokens
  docstring := method.docstring
  outputs := method.outputNames
  arguments := method.argumentNames

end MethodLayout

variable {rest : List Token}

theorem skipIndentTokens_append {indent : List Token} {stop first : Token} {more : List Token}
    (indented : ∀ token ∈ indent, token.isIndent) (stops : stop.isIndent = false)
    (shape : indent ++ stop :: rest = first :: more) :
    skipIndentTokens first more = (stop, rest) := by
  induction indent generalizing first more with
  | nil =>
    obtain ⟨rfl, rfl⟩ := List.cons.inj shape
    cases rest with
    | nil => rfl
    | cons next rest => simp [skipIndentTokens, stops]
  | cons blank indent ih =>
    have moreIndent : ∀ token ∈ indent, token.isIndent :=
      fun token member => indented token (by simp [member])
    rw [cons_append] at shape
    obtain ⟨rfl, remaining⟩ := List.cons.inj shape
    cases more with
    | nil => simp at remaining
    | cons next more =>
      rw [skipIndentTokens, if_pos (indented blank (by simp))]
      exact ih moreIndent remaining

theorem readCommentBlock_of_not_isComment {current : Token}
    (notComment : current.isComment = false) :
    readCommentBlock current rest = ⟨[], current, rest⟩ := by
  rw [readCommentBlock.eq_def]
  simp [notComment]

theorem readCommentBlock_line (line next : CommentLine) (rest : List Token) :
    readCommentBlock ⟨.comment, line.comment⟩ (line.lineEnd.val :: (next.tokens ++ rest)) =
      { readCommentBlock ⟨.comment, next.comment⟩ (next.lineEnd.val :: rest) with
        text := line.text ++
          (readCommentBlock ⟨.comment, next.comment⟩ (next.lineEnd.val :: rest)).text } := by
  have indented := isIndent_of_mem_unattach next.indent
  have stops : Token.isIndent ⟨.comment, next.comment⟩ = false := by
    simp [Token.isIndent]
  have regrouped : next.tokens ++ rest =
      next.indent.unattach ++ ⟨.comment, next.comment⟩ :: (next.lineEnd.val :: rest) := by
    simp [CommentLine.tokens]
  rw [regrouped]
  cases shape : next.indent.unattach ++ ⟨.comment, next.comment⟩ :: (next.lineEnd.val :: rest) with
  | nil => simp at shape
  | cons first more =>
    have skipped := skipIndentTokens_append indented stops shape
    rw [readCommentBlock]
    simp [Token.isComment, Token.commentText, line.lineEnd.property, skipped, CommentLine.text]

theorem readCommentBlock_lines (line : CommentLine) (lines : List CommentLine) {indent : List Token}
    {stop : Token} (indented : ∀ token ∈ indent, token.isIndent) (stops : stop.isIndent = false)
    (notComment : stop.isComment = false) :
    readCommentBlock ⟨.comment, line.comment⟩
        (line.lineEnd.val :: (lines.flatMap CommentLine.tokens ++ (indent ++ stop :: rest))) =
      ⟨(line :: lines).flatMap CommentLine.text, stop, rest⟩ := by
  induction lines generalizing line with
  | nil =>
    cases shape : indent ++ stop :: rest with
    | nil => simp at shape
    | cons first more =>
      have skipped := skipIndentTokens_append indented stops shape
      rw [readCommentBlock]
      simp [Token.isComment, Token.commentText, line.lineEnd.property, skipped,
        readCommentBlock_of_not_isComment notComment, CommentLine.text]
  | cons next lines ih =>
    rw [flatMap_cons, append_assoc, readCommentBlock_line, ih next]
    rfl

theorem StartsUncommented.head_dropWhile {body : List Token} (starts : StartsUncommented body)
    {test : Token → Bool} (filler : ∀ token, test token → token.isFiller) :
    ∀ token ∈ (body.dropWhile test).head?, token.isComment = false := by
  induction body with
  | nil => simp
  | cons first body ih =>
    intro token member
    by_cases passes : test first
    · have isFiller := filler first passes
      rw [dropWhile_cons_of_pos passes] at member
      refine ih ?_ token member
      intro token member
      exact starts token (by rwa [dropWhile_cons_of_pos isFiller])
    · rw [dropWhile_cons_of_neg passes] at member
      obtain rfl : first = token := by simpa using member
      by_cases isFiller : first.isFiller
      · exact Token.not_isComment_of_isFiller isFiller
      · exact starts first (by simp [dropWhile_cons_of_neg isFiller])

namespace MethodLayout

variable (method : MethodLayout)

/-- Without its leading filler the rest of a body is still there up to its `end`, and the first
token of it is no comment. -/
theorem dropWhile_body {test : Token → Bool} (filler : ∀ token, test token → token.isFiller)
    (tail : List Token) :
    ∃ stop rest, (method.body ++ Token.ending :: tail).dropWhile test = stop :: rest ∧
      test stop = false ∧ stop.isComment = false ∧
      stop :: rest = method.body.dropWhile test ++ Token.ending :: tail := by
  have endStops : test Token.ending = false := by
    cases passes : test Token.ending with
    | false => rfl
    | true => exact absurd (filler _ passes) (by decide)
  have dropped : (method.body ++ Token.ending :: tail).dropWhile test =
      method.body.dropWhile test ++ Token.ending :: tail := by
    rw [dropWhile_append]
    split
    · rename_i isEmpty
      rw [List.isEmpty_iff.mp isEmpty, dropWhile_cons_of_neg (by simp [endStops])]
      rfl
    · rfl
  have uncommented := method.startsUncommented.head_dropWhile filler
  cases remaining : method.body.dropWhile test with
  | nil => exact ⟨Token.ending, tail, by simp [dropped, remaining], endStops, by decide, rfl⟩
  | cons stop rest =>
    have stops : test stop = false := by
      have head := head?_dropWhile_not test method.body
      simpa [remaining] using head
    refine ⟨stop, rest ++ Token.ending :: tail, by simp [dropped, remaining], stops, ?_, rfl⟩
    exact uncommented stop (by simp [remaining])

theorem afterBody_body {test : Token → Bool} (filler : ∀ token, test token → token.isFiller)
    {stop : Token} {rest tail : List Token}
    (shape : stop :: rest =
      method.body.dropWhile test ++ Token.ending :: method.lineEnd.val :: tail) :
    FunctionDef.afterBody ⟨1, 0⟩ stop rest = method.lineEnd.val :: tail := by
  have wellNested : WellNested (method.body.dropWhile test) :=
    method.wellNested.dropWhile fun token passes => Token.isPlain_of_isFiller (filler token passes)
  calc
    FunctionDef.afterBody ⟨1, 0⟩ stop rest = FunctionDef.scanBody ⟨1, 0⟩ (stop :: rest) := rfl
    _ = method.lineEnd.val :: tail := by
      rw [shape, FunctionDef.scanBody_ending wellNested]

private theorem skipBlankTokens_bodyTokens {line : CommentLine} {lines : List CommentLine}
    (comments : method.comments = line :: lines) (tail : List Token) :
    FunctionDef.skipBlankTokens (method.bodyTokens ++ tail) =
      ⟨.comment, line.comment⟩ :: (line.lineEnd.val ::
        (lines.flatMap CommentLine.tokens ++ (method.body ++ Token.ending :: tail))) := by
  have indented : ∀ token ∈ line.indent.unattach,
      (token.kind == .whitespace || token.isIndent) = true := by
    intro token member
    simp [isIndent_of_mem_unattach line.indent token member]
  have start : method.bodyTokens ++ tail =
      ⟨.whitespace, method.afterSignature⟩ :: (line.indent.unattach ++
        ⟨.comment, line.comment⟩ :: (line.lineEnd.val ::
          (lines.flatMap CommentLine.tokens ++ (method.body ++ Token.ending :: tail)))) := by
    simp [bodyTokens, comments, CommentLine.tokens]
  rw [start, FunctionDef.skipBlankTokens, dropWhile_cons_of_pos (by simp),
    dropWhile_append_of_pos indented,
    dropWhile_cons_of_neg (by simp [Token.isIndent])]

theorem readBody_bodyTokens (definition : FunctionDef) (notices : List Notice) (tail : List Token) :
    FunctionDef.readBody definition notices (method.bodyTokens ++ method.lineEnd.val :: tail) =
      ⟨{ definition with
          docstring := method.docstring
          remaining := some (method.lineEnd.val :: tail) }, notices⟩ := by
  cases comments : method.comments with
  | nil =>
    let blank := fun token : Token => token.kind == .whitespace || token.isIndent
    have filler : ∀ token, blank token → token.isFiller := by
      intro token passes
      simp only [blank] at passes
      simp [Token.isFiller, passes]
    obtain ⟨stop, rest, dropped, _, notComment, shape⟩ :=
      method.dropWhile_body filler (method.lineEnd.val :: tail)
    have skipped : FunctionDef.skipBlankTokens
        (method.bodyTokens ++ method.lineEnd.val :: tail) = stop :: rest := by
      rw [← dropped]
      simp [FunctionDef.skipBlankTokens, bodyTokens, comments, blank]
    rw [FunctionDef.readBody, skipped]
    simp [readCommentBlock_of_not_isComment notComment, method.afterBody_body filler shape,
      docstring, comments]
  | cons line lines =>
    have filler : ∀ token : Token, token.isIndent → token.isFiller := by
      intro token isIndent
      simp [Token.isFiller, isIndent]
    obtain ⟨stop, rest, dropped, stops, notComment, shape⟩ :=
      method.dropWhile_body filler (method.lineEnd.val :: tail)
    let indent := (method.body ++ Token.ending :: method.lineEnd.val :: tail).takeWhile
      Token.isIndent
    have indented : ∀ token ∈ indent, token.isIndent :=
      all_eq_true.mp all_takeWhile
    have split : method.body ++ Token.ending :: method.lineEnd.val :: tail =
        indent ++ stop :: rest := by
      rw [← dropped, takeWhile_append_dropWhile]
    rw [FunctionDef.readBody, method.skipBlankTokens_bodyTokens comments, split]
    simp [readCommentBlock_lines line lines indented stops notComment,
      method.afterBody_body filler shape, docstring, comments]

theorem read_tokens (module : Text) (tail : List Token) :
    FunctionDef.read .method module (method.tokens ++ method.lineEnd.val :: tail) =
      ⟨{ method.function module with
          tokens := method.tokens ++ method.lineEnd.val :: tail
          remaining := some (method.lineEnd.val :: tail) }, []⟩ := by
  rw [tokens, append_assoc, method.read_signatureTokens, readBody_bodyTokens]
  rfl

end MethodLayout

end MatlabDocs
