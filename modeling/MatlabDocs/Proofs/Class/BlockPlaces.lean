import MatlabDocs.Proofs.Class.Relocation

/-!
# Blocks in their places

The blocks of a class are looked for in rounds.  Whatever stands in front of a block, the block is
read from its opening on, and all that stands behind it is read as the rest of a round.  Which
sorts that round has left to look for depends on the blocks in front alone.  So a change within a
block that its reader does not see is not seen in the rest of the class either.
-/

namespace MatlabDocs

namespace ClassState

open Relocation

variable (sorts : List BlockSort) (state : ClassState)

theorem readRound_state {move : Relocation} :
    readRound sorts (move.state state) = move.state <$> move.reads (readRound sorts state) := by
  simp [readRound, readSorts_state, readBlocks_state]

end ClassState

/-- What stands in a class file in front of one of its blocks. -/
structure ClassFront where
  head : HeadPart
  lead : List Token
  commentary : ∀ token ∈ lead, ClassState.isCommentary token
  apart : ∀ first ∈ lead.head?, first.isIndent = false ∧ first.isComment = false
  blocks : List BlockPart

namespace ClassFront

open ClassState

variable (front : ClassFront)

def bodyTokens : List Token :=
  front.lead ++ front.blocks.flatMap BlockPart.tokens

def tokens : List Token :=
  ⟨.keyword, "classdef"⟩ :: (front.head.tokens ++ front.bodyTokens)

def definition (module : Text) (tokens : List Token) : ClassDef where
  name := front.head.name
  module
  tokens
  docstring := front.head.docstring
  attributes := front.head.attributes
  bases := front.head.bases
  properties := BlockPart.enterAll front.blocks {}
  methods := Table.ofList (BlockPart.allEntries front.blocks module)

theorem exists_reading (sort : BlockSort) (module : Text) :
    ∃ later, ∀ rest,
      let tokens := front.tokens ++ sort.opening :: rest
      (do readBlocks (← readHead
        { position := 1, rest := tokens.drop 1,
          definition := { name := front.head.name, module, tokens } })) =
        sort.read
          ⟨front.tokens.length, sort.opening :: rest, front.definition module tokens, []⟩ >>=
          readRound later := by
  obtain ⟨later, opened⟩ := BlockPart.exists_readBlocks_opening front.blocks sort
    front.commentary
  refine ⟨later, fun rest => ?_⟩
  intro tokens
  have ends : EndsHead (front.bodyTokens ++ sort.opening :: rest) :=
    .of_blocks front.apart front.blocks (by cases sort <;> decide) (by cases sort <;> decide)
      (by cases sort <;> decide) rest
  have head := front.head.isRead _ ends 1 { name := front.head.name, module, tokens } [] rfl
  have blocks := opened rest (1 + front.head.tokens.length)
    { name := front.head.name, module, tokens, attributes := front.head.attributes,
      bases := front.head.bases, docstring := front.head.docstring } []
  have dropped : tokens.drop 1 =
      front.head.tokens ++ (front.bodyTokens ++ sort.opening :: rest) := by
    simp [tokens, ClassFront.tokens]
  have length : 1 + front.head.tokens.length + front.bodyTokens.length = front.tokens.length := by
    simp only [ClassFront.tokens, List.length_cons, List.length_append]
    omega
  simp only [List.nil_append] at head
  rw [dropped, head, Reads.ok_bind, ← length]
  exact blocks

/-- A class whose block is read like another, up to a number of tokens more, is read like the class
with that block. -/
theorem read_of_block_eq (sort : BlockSort) {rest others : List Token} {shift : Nat} {module : Text}
    (same : ∀ position definition notices,
      let move : Relocation := { shift, tokens := front.tokens ++ sort.opening :: others }
      sort.read ⟨position, sort.opening :: others, move.definition definition, notices⟩ =
        move.state <$>
          move.reads (sort.read ⟨position, sort.opening :: rest, definition, notices⟩)) :
    ClassDef.read front.head.name module (front.tokens ++ sort.opening :: others) =
      (ClassDef.read front.head.name module (front.tokens ++ sort.opening :: rest)).map
        (Relocation.definition { shift, tokens := front.tokens ++ sort.opening :: others }) := by
  obtain ⟨later, reading⟩ := front.exists_reading sort module
  apply Relocation.read_of_reading_eq
  rw [reading, reading]
  have opened := congrArg (· >>= readRound later) (same front.tokens.length
    (front.definition module (front.tokens ++ sort.opening :: rest)) [])
  refine opened.trans ?_
  simp [readRound_state]

end ClassFront

end MatlabDocs
