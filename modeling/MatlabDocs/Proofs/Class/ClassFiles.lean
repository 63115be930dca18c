import MatlabDocs.Definition.Basic
import MatlabDocs.Proofs.Class.PropertyHalts

/-!
# Class files made of parts

A class file is a head, a sequence of blocks and an `end`.  A part of it is known by what the
reading finds there, whatever stands behind the part.  The reading of the whole file finds just
what the parts hold.
-/

set_option mvcgen.warning false

namespace MatlabDocs

open List ClassState

/-- The sorts of blocks in a class. -/
inductive BlockSort where
  | properties
  | methods
  | events
  | enumeration
  deriving DecidableEq, Repr

namespace BlockSort

def opening : BlockSort → Token
  | properties => ⟨.keyword, "properties"⟩
  | methods => ⟨.keyword, "methods"⟩
  | events => ⟨.keyword, "events"⟩
  | enumeration => ⟨.name, "enumeration"⟩

def read : BlockSort → ClassState → Reads ClassState
  | properties => readProperties
  | methods => readMethods
  | events => passBlock
  | enumeration => passBlock

/-- A round over the blocks looks for the sorts in this order. -/
def order : List BlockSort :=
  [properties, methods, events, enumeration]

variable (sort : BlockSort)

private theorem opening_ne {first second : BlockSort} (different : first ≠ second) :
    first.opening ≠ second.opening := by
  cases first <;> cases second <;> first | contradiction | decide

theorem opening_ne_of_not_mem {sort : BlockSort} {sorts : List BlockSort} (absent : sort ∉ sorts) :
    ∀ other ∈ sorts, sort.opening ≠ other.opening :=
  fun _ member => opening_ne fun same => absent (same ▸ member)

theorem not_isCommentary_opening : isCommentary sort.opening = false := by
  cases sort <;> decide

end BlockSort

namespace ClassState

variable {position : Nat} {definition : ClassDef} {notices : List Notice} {first : Token}
  {rest : List Token} {sorts : List BlockSort}

theorem readBlock_of_ne {opening : Token} {read : ClassState → Reads ClassState}
    (different : first ≠ opening) :
    readBlock opening read ⟨position, first :: rest, definition, notices⟩ =
      .ok ⟨position, first :: rest, definition, notices⟩ := by
  have notEqual : (first == opening) = false := by simpa using different
  simp only [readBlock, peek_cons, Reads.ok_bind, notEqual, Bool.false_eq_true, if_false]
  rfl

def readSorts : List BlockSort → ClassState → Reads ClassState
  | [], state => .ok state
  | sort :: sorts, state => do
    readSorts sorts (← readBlock sort.opening sort.read state)

/-- What is left of a round that has these sorts to look for. -/
def finishRound (sorts : List BlockSort) (start state : ClassState) : Reads ClassState := do
  let after ← readSorts sorts state
  progressing .blocks start after fun _ => readBlocks after

theorem readBlocks_of_start {state start : ClassState} (peeked : state.peek = .ok first)
    (notEnd : first.isKeyword "end" = false) (skipped : state.skipCommentary = .ok start) :
    readBlocks state = finishRound BlockSort.order state start := by
  rw [readBlocks, peeked, Reads.ok_bind, if_neg (Bool.eq_false_iff.mp notEnd), skipped,
    Reads.ok_bind]
  simp [finishRound, BlockSort.order, readSorts, BlockSort.opening, BlockSort.read, bind_assoc,
    Reads.ok_bind]

theorem readSorts_of_ne (different : ∀ sort ∈ sorts, first ≠ sort.opening) :
    readSorts sorts ⟨position, first :: rest, definition, notices⟩ =
      .ok ⟨position, first :: rest, definition, notices⟩ := by
  induction sorts with
  | nil => rfl
  | cons sort sorts ih =>
    rw [readSorts, readBlock_of_ne (different sort (by simp)), Reads.ok_bind]
    exact ih fun sort member => different sort (by simp [member])

theorem readSorts_append (first second : List BlockSort) (state : ClassState) :
    readSorts (first ++ second) state = readSorts first state >>= readSorts second := by
  induction first generalizing state with
  | nil => rfl
  | cons sort sorts ih => simp only [cons_append, readSorts, ih, bind_assoc]

variable (sorts : List BlockSort) (state : ClassState)

/-- What is left of a round that has these sorts to look for, and the rounds after it. -/
def readRound : Reads ClassState :=
  readSorts sorts state >>= readBlocks

@[spec] theorem readSort_yields (sort : BlockSort) (state : ClassState) :
    Yields (sort.read state) (Follows (state.advance 1)) fun _ => True := by
  cases sort
  all_goals mvcgen [BlockSort.read, readProperties_follows] with grind

@[spec] theorem readSorts_yields :
    Yields (readSorts sorts state) (Follows state) fun _ => True := by
  induction sorts generalizing state
  case nil => mvcgen [readSorts] with grind
  case cons sort sorts ih => mvcgen [readSorts, readBlock, ih] with grind

theorem finishRound_of_lt {sorts : List BlockSort} {start state : ClassState}
    (shorter : state.rest.length < start.rest.length) :
    finishRound sorts start state = readRound sorts state := by
  unfold finishRound readRound
  cases read : readSorts sorts state with
  | error stop => rfl
  | ok after =>
    have suffix := ((readSorts_yields sorts state).of_ok read).rest
    rw [Reads.ok_bind, Reads.ok_bind,
      progressing_of_lt (Nat.lt_of_le_of_lt suffix.length_le shorter)]

theorem exists_readSorts_opening {sorts : List BlockSort} {sort : BlockSort}
    (member : sort ∈ sorts) :
    ∃ later, ∀ rest position definition notices,
      readSorts sorts ⟨position, sort.opening :: rest, definition, notices⟩ =
        sort.read ⟨position, sort.opening :: rest, definition, notices⟩ >>= readSorts later := by
  obtain ⟨earlier, later, rfl, absent⟩ := eq_append_cons_of_mem member
  refine ⟨later, fun rest position definition notices => ?_⟩
  rw [readSorts_append, readSorts_of_ne (BlockSort.opening_ne_of_not_mem absent),
    Reads.ok_bind, readSorts]
  simp [readBlock, peek_cons, Reads.ok_bind]

end ClassState

def ClassDef.extend (definition : ClassDef) (enter : NameTable PropertyDef → NameTable PropertyDef)
    (entries : Text → List (Text × MethodDef)) : ClassDef :=
  { definition with
    properties := enter definition.properties
    methods := definition.methods.insertAll (entries definition.module) }

/-- A block with the white space and the comments behind it. -/
structure BlockPart where
  sort : BlockSort
  tokens : List Token
  enter : NameTable PropertyDef → NameTable PropertyDef
  entries : Text → List (Text × MethodDef)
  isRead : ∃ passed left, sort.opening :: (passed ++ left) = tokens ∧
    (∀ token ∈ left, isCommentary token) ∧
    ∀ tail, ClassState.Consumes sort.read (sort.opening :: passed) tail (·.extend enter entries)

namespace ClassState

variable {position : Nat} {definition : ClassDef} {notices : List Notice}

section

variable {sorts : List BlockSort} {lead : List Token}
  (commentary : ∀ token ∈ lead, isCommentary token)
include commentary

/-- A new round passes over white space and comments to the block that comes next. -/
theorem exists_readBlocks_opening (sort : BlockSort) :
    ∃ later, ∀ rest position definition notices,
      readBlocks ⟨position, lead ++ sort.opening :: rest, definition, notices⟩ =
        sort.read ⟨position + lead.length, sort.opening :: rest, definition, notices⟩ >>=
          readRound later := by
  have listed : sort ∈ BlockSort.order := by cases sort <;> decide
  obtain ⟨later, opened⟩ := exists_readSorts_opening listed
  refine ⟨later, fun rest position definition notices => ?_⟩
  obtain ⟨first, notEnd, peeked⟩ := @exists_peek position definition notices lead rest sort.opening
    _ (fun token member => not_isKeyword_of_isCommentary (commentary token member) "end")
    fun _ => by cases sort <;> decide
  rw [readBlocks_of_start peeked notEnd
    (skipCommentary_run commentary sort.not_isCommentary_opening), finishRound, opened, bind_assoc]
  -- The reader of the block passes its opening at least, so the round is not stuck.
  cases read : sort.read ⟨position + lead.length, sort.opening :: rest, definition, notices⟩ with
  | error stop => rfl
  | ok after =>
    have suffix : after.rest <:+ rest := ((readSort_yields sort _).of_ok read).rest
    have shorter : after.rest.length < (lead ++ sort.opening :: rest).length := by
      have := suffix.length_le
      simp only [length_append, length_cons]
      omega
    exact finishRound_of_lt shorter

/-- At a token that opens no block of the round, the next round begins. -/
theorem readRound_eq_readBlocks {stop : Token} {rest : List Token}
    (different : lead = [] → ∀ sort ∈ sorts, stop ≠ sort.opening) :
    readRound sorts ⟨position, lead ++ stop :: rest, definition, notices⟩ =
      readBlocks ⟨position, lead ++ stop :: rest, definition, notices⟩ := by
  cases lead with
  | nil => rw [nil_append, readRound, readSorts_of_ne (different rfl), Reads.ok_bind]
  | cons first lead =>
    have foreign : ∀ sort ∈ sorts, first ≠ sort.opening :=
      fun sort _ => ne_of_test (commentary first (by simp)) sort.not_isCommentary_opening
    rw [cons_append, readRound, readSorts_of_ne foreign, Reads.ok_bind]

theorem exists_readRound_opening (sorts : List BlockSort) (sort : BlockSort) :
    ∃ later, ∀ rest position definition notices,
      readRound sorts ⟨position, lead ++ sort.opening :: rest, definition, notices⟩ =
        sort.read ⟨position + lead.length, sort.opening :: rest, definition, notices⟩ >>=
          readRound later := by
  by_cases inRound : lead = [] ∧ sort ∈ sorts
  · obtain ⟨rfl, member⟩ := inRound
    obtain ⟨later, opened⟩ := exists_readSorts_opening member
    refine ⟨later, fun rest position definition notices => ?_⟩
    rw [readRound, nil_append, opened, bind_assoc]
    rfl
  · obtain ⟨later, opened⟩ := exists_readBlocks_opening commentary sort
    refine ⟨later, fun rest position definition notices => ?_⟩
    rw [← opened, readRound_eq_readBlocks commentary]
    exact fun empty => BlockSort.opening_ne_of_not_mem fun member => inRound ⟨empty, member⟩

theorem readRound_ending (tail : List Token) :
    readRound sorts ⟨position, lead ++ Token.ending :: tail, definition, notices⟩ =
      .ok ⟨position + lead.length, Token.ending :: tail, definition, notices⟩ := by
  have isEnd : Token.ending.isKeyword "end" = true := by decide
  have notOpening : ∀ sort : BlockSort, Token.ending ≠ sort.opening := by
    intro sort
    cases sort <;> decide
  have stops : ∀ position, readBlocks ⟨position, Token.ending :: tail, definition, notices⟩ =
      .ok ⟨position, Token.ending :: tail, definition, notices⟩ := by
    intro position
    rw [readBlocks, peek_cons, Reads.ok_bind, if_pos isEnd]
    rfl
  rw [readRound_eq_readBlocks commentary fun _ sort _ => notOpening sort]
  cases lead with
  | nil => exact stops position
  | cons first lead =>
    have goesOn := not_isKeyword_of_isCommentary (commentary first (by simp)) "end"
    refine (readBlocks_of_start peek_cons goesOn
      (skipCommentary_run commentary (by decide))).trans ?_
    rw [finishRound, readSorts_of_ne fun sort _ => notOpening sort, Reads.ok_bind,
      progressing_of_lt, stops]
    show (Token.ending :: tail).length < (first :: lead ++ Token.ending :: tail).length
    simp only [length_cons, length_append]
    omega

end

end ClassState

namespace BlockPart

variable (block : BlockPart) (blocks : List BlockPart)

def enterAll (properties : NameTable PropertyDef) : NameTable PropertyDef :=
  blocks.foldl (fun properties block => block.enter properties) properties

def allEntries (module : Text) : List (Text × MethodDef) :=
  blocks.flatMap fun block => block.entries module

def followedBy (gap : List Token) (commentary : ∀ token ∈ gap, isCommentary token) : BlockPart where
  sort := block.sort
  tokens := block.tokens ++ gap
  enter := block.enter
  entries := block.entries
  isRead := by
    obtain ⟨passed, left, shape, leftCommentary, consumes⟩ := block.isRead
    refine ⟨passed, left ++ gap, by simp [← shape], ?_, consumes⟩
    exact fun token member =>
      (mem_append.mp member).elim (leftCommentary token) (commentary token)

private theorem extend_cons (definition : ClassDef) :
    (definition.extend block.enter block.entries).extend (enterAll blocks) (allEntries blocks) =
      definition.extend (enterAll (block :: blocks)) (allEntries (block :: blocks)) := by
  simp [ClassDef.extend, enterAll, allEntries, Table.insertAll_append]

/-- Blocks are read in turn, up to the white space and the comments at their end. -/
theorem exists_readRound (sorts : List BlockSort) {lead : List Token}
    (commentary : ∀ token ∈ lead, isCommentary token) :
    ∃ later passed left, passed ++ left = lead ++ blocks.flatMap tokens ∧
      (∀ token ∈ left, isCommentary token) ∧ ∀ rest position definition notices,
        readRound sorts ⟨position, passed ++ (left ++ rest), definition, notices⟩ =
          readRound later ⟨position + passed.length, left ++ rest,
            definition.extend (enterAll blocks) (allEntries blocks), notices⟩ := by
  induction blocks generalizing sorts lead with
  | nil => exact ⟨sorts, [], lead, by simp, commentary, fun _ _ _ _ => rfl⟩
  | cons block blocks ih =>
    obtain ⟨inner, behind, shape, behindCommentary, consumes⟩ := block.isRead
    obtain ⟨middle, opened⟩ := exists_readRound_opening commentary sorts block.sort
    obtain ⟨later, passed, left, split, leftCommentary, reads⟩ := ih middle behindCommentary
    refine ⟨later, lead ++ block.sort.opening :: (inner ++ passed), left,
      by simp [split, ← shape], leftCommentary, fun rest position definition notices => ?_⟩
    have read := consumes (passed ++ (left ++ rest)) (position + lead.length) definition notices
    have regrouped : lead ++ block.sort.opening :: (inner ++ passed) ++ (left ++ rest) =
        lead ++ block.sort.opening :: (inner ++ (passed ++ (left ++ rest))) := by
      simp
    rw [cons_append] at read
    rw [regrouped, opened, read, Reads.ok_bind, reads, extend_cons]
    congr 2
    simp only [length_append, length_cons]
    omega

theorem readBlocks_ending (tail : List Token) {lead : List Token}
    (commentary : ∀ token ∈ lead, isCommentary token) :
    Consumes readBlocks (lead ++ blocks.flatMap tokens) (Token.ending :: tail)
      (·.extend (enterAll blocks) (allEntries blocks)) := by
  intro position definition notices
  obtain ⟨later, passed, left, split, leftCommentary, reads⟩ :=
    exists_readRound blocks [] commentary
  rw [← split, append_assoc]
  refine (reads _ _ _ _).trans ?_
  rw [readRound_ending leftCommentary, length_append, Nat.add_assoc]

/-- In front of a block, its reader is called, and the round goes on behind the block. -/
theorem exists_readBlocks_opening (sort : BlockSort) {lead : List Token}
    (commentary : ∀ token ∈ lead, isCommentary token) :
    ∃ later, ∀ rest position definition notices,
      readBlocks ⟨position, lead ++ blocks.flatMap tokens ++ sort.opening :: rest, definition,
          notices⟩ =
        sort.read ⟨position + (lead ++ blocks.flatMap tokens).length, sort.opening :: rest,
          definition.extend (enterAll blocks) (allEntries blocks), notices⟩ >>=
            readRound later := by
  obtain ⟨middle, passed, left, split, leftCommentary, reads⟩ :=
    exists_readRound blocks [] commentary
  obtain ⟨later, opened⟩ := exists_readRound_opening leftCommentary middle sort
  refine ⟨later, fun rest position definition notices => ?_⟩
  rw [← split, append_assoc]
  refine (reads _ _ _ _).trans ?_
  rw [opened, length_append, Nat.add_assoc]

end BlockPart

/-- The head of a class does not go on with these tokens, and they are not all white space. -/
structure EndsHead (tail : List Token) : Prop where
  starts : ∃ stop rest, tail = stop :: rest ∧ stop.isIndent = false ∧ stop.isComment = false
  hasText : ∃ token ∈ tail, isSpacing token = false

theorem EndsHead.of_blocks {lead : List Token}
    (apart : ∀ first ∈ lead.head?, first.isIndent = false ∧ first.isComment = false)
    (blocks : List BlockPart) {stop : Token} (notIndent : stop.isIndent = false)
    (notComment : stop.isComment = false) (isText : isSpacing stop = false)
    (rest : List Token) : EndsHead (lead ++ blocks.flatMap BlockPart.tokens ++ stop :: rest) := by
  refine ⟨?_, stop, by simp, isText⟩
  cases lead with
  | cons first others => exact ⟨first, _, rfl, apart first rfl⟩
  | nil =>
    cases blocks with
    | nil => exact ⟨stop, rest, rfl, notIndent, notComment⟩
    | cons block others =>
      obtain ⟨passed, left, shape, -⟩ := block.isRead
      refine ⟨block.sort.opening, _, by simp [← shape]; rfl, ?_, ?_⟩
      · cases block.sort <;> decide
      · cases block.sort <;> decide

/-- What stands between the keyword of a class and the first line without a comment. -/
structure HeadPart where
  name : Text
  tokens : List Token
  attributes : Attributes
  bases : List Text
  docstring : Text
  isRead : ∀ tail, EndsHead tail → ∀ position definition notices, definition.name = name →
    readHead ⟨position, tokens ++ tail, definition, notices⟩ =
      .ok ⟨position + tokens.length, tail,
        { definition with
          attributes
          bases := definition.bases ++ bases
          docstring := definition.docstring ++ docstring }, notices⟩

theorem apart_nil :
    ∀ first ∈ ([] : List Token).head?, first.isIndent = false ∧ first.isComment = false := by
  simp

/-- A class file, with any tokens behind the `end` of the class. -/
structure ClassFile where
  head : HeadPart
  lead : List Token
  commentary : ∀ token ∈ lead, isCommentary token
  apart : ∀ first ∈ lead.head?, first.isIndent = false ∧ first.isComment = false
  blocks : List BlockPart
  rest : List Token

namespace ClassFile

variable (file : ClassFile)

def bodyTokens : List Token :=
  file.lead ++ file.blocks.flatMap BlockPart.tokens

def tokens : List Token :=
  ⟨.keyword, "classdef"⟩ :: (file.head.tokens ++ (file.bodyTokens ++ Token.ending :: file.rest))

def definition (file : ClassFile) (module : Text) : ClassDef where
  name := file.head.name
  module
  tokens := file.tokens
  docstring := file.head.docstring
  attributes := file.head.attributes
  bases := file.head.bases
  properties := BlockPart.enterAll file.blocks {}
  methods := Table.ofList (BlockPart.allEntries file.blocks module)
  index := some (1 + file.head.tokens.length + file.bodyTokens.length)

private theorem endsHead : EndsHead (file.bodyTokens ++ Token.ending :: file.rest) :=
  .of_blocks file.apart file.blocks (by decide) (by decide) (by decide) file.rest

/-- A class file is read as its parts say, up to the `end` of the class and without a notice. -/
theorem read_tokens (module : Text) :
    ClassDef.read file.head.name module file.tokens = ⟨.ok (file.definition module), []⟩ := by
  have head := file.head.isRead _ file.endsHead 1
    { name := file.head.name, module, tokens := file.tokens } [] rfl
  have blocks := BlockPart.readBlocks_ending file.blocks file.rest file.commentary
    (1 + file.head.tokens.length)
    { name := file.head.name, module, tokens := file.tokens, attributes := file.head.attributes,
      bases := file.head.bases, docstring := file.head.docstring } []
  have dropped : file.tokens.drop 1 =
      file.head.tokens ++ (file.bodyTokens ++ Token.ending :: file.rest) := rfl
  rw [ClassDef.read, dropped]
  simp only [nil_append] at head
  rw [← bodyTokens] at blocks
  simp only [head, Reads.ok_bind, blocks]
  rfl

end ClassFile

namespace Definition

/-- The first token of the code below its comment header is the keyword of a class. -/
def IsClassCode (code : Text) : Prop :=
  (lex (prepareCode code)).head?.any (·.isKeyword "classdef")

instance (code : Text) : Decidable (IsClassCode code) :=
  inferInstanceAs (Decidable (_ = true))

theorem ofCode_of_isClassCode {code : Text} (isClass : IsClassCode code) (name module : Text) :
    ofCode name module code = (ClassDef.read name module (lex (prepareCode code))).map .class := by
  unfold IsClassCode at isClass
  unfold ofCode
  dsimp only
  split
  · rename_i first rest tokens
    rw [tokens] at isClass
    exact if_pos isClass
  · rename_i empty
    rw [empty] at isClass
    cases isClass

end Definition

end MatlabDocs
