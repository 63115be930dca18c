import MatlabDocs.Proofs.Class.ClassHeads
import MatlabDocs.Proofs.Class.MethodLists
import MatlabDocs.Proofs.Function.NameLists

/-!
# Classes made of method blocks

A class in the usual layout is a head and a sequence of blocks: methods under attributes,
events and enumerations.  Reading such a class gives back its methods in the order in which
they stand, each with its signature, its docstring and the attributes of its block.
-/

namespace MatlabDocs

open ClassState

inductive UndocumentedSort where
  | events
  | enumeration
  deriving DecidableEq, Repr

def UndocumentedSort.opening : UndocumentedSort → Token
  | events => ⟨.keyword, "events"⟩
  | enumeration => ⟨.name, "enumeration"⟩

/-- A block of a class, up to the line end behind its `end`. -/
inductive BlockLayout where
  | methods (head : AttributeLayout ClassDef.methodAttributes) (headEnd : LineEndToken)
      (members : List MethodLayout) (lineEnd : LineEndToken)
  | undocumented (sort : UndocumentedSort) (inner : List Token)
      (closed : ∀ token ∈ inner, token.isKeyword "end" = false) (lineEnd : LineEndToken)

def BlockLayout.tokens : BlockLayout → List Token
  | methods head headEnd members lineEnd =>
    ⟨.keyword, "methods"⟩ :: (head.tokens ++
      headEnd.val :: (members.flatMap MethodLayout.lineTokens ++ [Token.ending, lineEnd.val]))
  | undocumented sort inner _ lineEnd => sort.opening :: (inner ++ [Token.ending, lineEnd.val])

def BlockLayout.entries (module : Text) : BlockLayout → List (Text × MethodDef)
  | methods head _ members _ =>
    (members.filter MethodLayout.isDocumented).map fun method =>
      method.entry module head.attributes
  | undocumented _ _ _ _ => []

/-- A method block with whatever may stand in it, up to the line end behind its `end`. -/
structure MethodBlockLayout where
  head : AttributePart ClassDef.methodAttributes
  headEnd : LineEndToken
  items : List MethodItem
  lineEnd : LineEndToken

namespace MethodBlockLayout

variable (block : MethodBlockLayout)

def tokens : List Token :=
  ⟨.keyword, "methods"⟩ :: (block.head.tokens ++ block.headEnd.val ::
    (block.items.flatMap MethodItem.tokens ++ [Token.ending, block.lineEnd.val]))

def entries : Text → List (Text × MethodDef) :=
  MethodItem.listEntries block.items block.head.attributes

theorem isRead :
    ∃ passed left, BlockSort.methods.opening :: (passed ++ left) = block.tokens ∧
      (∀ token ∈ left, isCommentary token) ∧
      ∀ tail, ClassState.Consumes readMethods
        (BlockSort.methods.opening :: passed) tail (·.extend id block.entries) := by
  have commentary : ∀ token ∈ [block.headEnd.val], isCommentary token := by
    simpa using isCommentary_of_isNewline _ block.headEnd.property
  obtain ⟨passed, left, split, spacing, list⟩ := (readsMethods_items block.items
    block.head.attributes block.lineEnd).1 [block.headEnd.val] commentary
  cases passed with
  | nil =>
    have endSpacing := spacing Token.ending (by rw [List.nil_append] at split; simp [split])
    exact absurd endSpacing (by decide)
  | cons first passed =>
    simp only [List.cons_append, List.nil_append, List.cons.injEq] at split
    obtain ⟨rfl, split⟩ := split
    refine ⟨block.head.tokens ++ block.headEnd.val :: passed, left, ?_, ?_, ?_⟩
    · simp [tokens, ← split, BlockSort.opening]
    · exact fun token member => isCommentary_of_isSpacing token (spacing token member)
    · exact fun tail => .of_attributes block.head block.headEnd _ readMethodList
        (fun _ => rfl) (list tail)

def part : BlockPart where
  sort := .methods
  tokens := block.tokens
  enter := id
  entries := block.entries
  isRead := block.isRead

end MethodBlockLayout

theorem ClassState.passBlock_tokens (opening : Token) {inner : List Token}
    (closed : ∀ token ∈ inner, token.isKeyword "end" = false) (tail : List Token) :
    Consumes passBlock (opening :: (inner ++ [Token.ending])) tail id := by
  intro position definition notices
  have passes : ∀ token ∈ inner, (!token.isKeyword "end") = true := by
    intro token member
    rw [closed token member]
    rfl
  have passed := @pass_append_cons (position + 1) definition notices inner tail Token.ending
    (fun token => !token.isKeyword "end") passes (by decide)
  have regrouped : opening :: (inner ++ [Token.ending]) ++ tail =
      opening :: (inner ++ Token.ending :: tail) := by
    simp
  rw [regrouped, passBlock, advance_one, passed]
  simp only [Reads.ok_bind, advance_one, id_eq, List.length_cons, List.length_append,
    List.length_nil, pure, Except.pure, Except.ok.injEq, mk.injEq, and_true]
  omega

def ClassState.blockTokens (blocks : List BlockLayout) : List Token :=
  blocks.flatMap BlockLayout.tokens ++ [Token.ending]

def UndocumentedSort.sort : UndocumentedSort → BlockSort
  | events => .events
  | enumeration => .enumeration

def UndocumentedSort.part (sort : UndocumentedSort) (inner : List Token)
    (closed : ∀ token ∈ inner, token.isKeyword "end" = false) (lineEnd : LineEndToken) :
    BlockPart where
  sort := sort.sort
  tokens := sort.opening :: (inner ++ [Token.ending, lineEnd.val])
  enter := id
  entries := fun _ => []
  isRead := by
    refine ⟨inner ++ [Token.ending], [lineEnd.val], ?_, ?_, ?_⟩
    · cases sort <;> simp [UndocumentedSort.sort, BlockSort.opening, opening]
    · exact fun token member =>
        isCommentary_of_isSpacing token (lineEnd.isSpacing_of_mem token member)
    · intro tail
      cases sort <;> exact passBlock_tokens _ closed tail

namespace BlockLayout

def part : BlockLayout → BlockPart
  | methods head headEnd members lineEnd =>
    MethodBlockLayout.part ⟨head.part, headEnd, members.map .method, lineEnd⟩
  | undocumented sort inner closed lineEnd => sort.part inner closed lineEnd

theorem tokens_part (block : BlockLayout) : block.part.tokens = block.tokens := by
  cases block with
  | methods head headEnd members lineEnd =>
    simp [part, MethodBlockLayout.part, MethodBlockLayout.tokens, AttributeLayout.part, tokens,
      List.flatMap_map, MethodItem.tokens]
  | undocumented sort inner closed lineEnd => rfl

theorem entries_part (block : BlockLayout) (module : Text) :
    block.part.entries module = block.entries module := by
  cases block with
  | methods head headEnd members lineEnd => exact MethodItem.listEntries_map_method members _ _
  | undocumented sort inner closed lineEnd => rfl

theorem enterAll_parts (blocks : List BlockLayout) (properties : NameTable PropertyDef) :
    BlockPart.enterAll (blocks.map part) properties = properties := by
  induction blocks with
  | nil => rfl
  | cons block blocks ih => cases block <;> exact ih

end BlockLayout

/-- A class without attributes, base classes, docstring and properties. -/
structure ClassLayout where
  blank : IndentToken
  name : Text
  lineEnd : LineEndToken
  blocks : List BlockLayout

namespace ClassLayout

variable (layout : ClassLayout) (module : Text)

def tokens : List Token :=
  ⟨.keyword, "classdef"⟩ :: layout.blank.val :: ⟨.name, layout.name⟩ :: layout.lineEnd.val ::
    blockTokens layout.blocks

def entries : List (Text × MethodDef) :=
  layout.blocks.flatMap (BlockLayout.entries module)

theorem read_tokens :
    ClassDef.read layout.name module layout.tokens =
      ⟨.ok { name := layout.name, module, tokens := layout.tokens,
             methods := Table.ofList (layout.entries module),
             index := some (layout.tokens.length - 1) }, []⟩ := by
  have read := ClassFile.read_bare layout.blank layout.name layout.lineEnd
    (layout.blocks.map BlockLayout.part) module
  have blocks : (layout.blocks.map BlockLayout.part).flatMap BlockPart.tokens =
      layout.blocks.flatMap BlockLayout.tokens := by
    simp [List.flatMap_map, BlockLayout.tokens_part]
  have entries : BlockPart.allEntries (layout.blocks.map BlockLayout.part) module =
      layout.entries module := by
    simp only [BlockPart.allEntries, List.flatMap_map, BlockLayout.entries_part]
    rfl
  rw [blocks, entries, BlockLayout.enterAll_parts] at read
  exact read

/-- The methods of a class are read back as they stand, up to its last `end` and without a
notice.  Under distinct names the table lists them in their order; outputs and arguments
that are written as lists of names are read back as these names. -/
theorem methodBlocks_read_back (layout : ClassLayout) (module : Text) :
    ClassDef.read layout.name module layout.tokens =
      ⟨.ok { name := layout.name, module, tokens := layout.tokens,
             methods := Table.ofList (layout.entries module),
             index := some (layout.tokens.length - 1) }, []⟩ ∧
    (((layout.entries module).map Prod.fst).Nodup →
      (Table.ofList (layout.entries module)).entries = layout.entries module) ∧
    (∀ names : List Identifier, names ≠ [] →
      FunctionDef.outputNames (outputsText names) = some (names.map Identifier.text) ∧
      FunctionDef.argumentNames (listText names) = names.map Identifier.text) := by
  refine ⟨layout.read_tokens module, Table.entries_ofList, ?_⟩
  intro names notEmpty
  exact ⟨FunctionDef.outputNames_outputsText notEmpty, map_strip_splitOn_listText notEmpty⟩

theorem static_mem_methodAttributes : ("Static" : Text) ∈ ClassDef.methodAttributes := by
  decide

def lastItem : ClassLayout where
  blank := .blank
  name := "Stack"
  lineEnd := ⟨⟨.text, "\n"⟩, rfl⟩
  blocks := [
    .undocumented .events [⟨.name, "Emptied"⟩] (by decide) ⟨⟨.text, "\n"⟩, rfl⟩,
    .methods ⟨[], some [⟨[], "Static", static_mem_methodAttributes, []⟩]⟩ ⟨⟨.text, "\n"⟩, rfl⟩
      [{ keyword := "function", isFunction := MethodLayout.strip_function, gap := " "
         outputs := some ⟨"item ", by decide, " "⟩
         name := "last", arguments := some "items, count", afterSignature := "\n"
         comments := [⟨[], "% Last item.", ⟨⟨.text, "\n"⟩, rfl⟩⟩]
         body := [⟨.keyword, "for"⟩, ⟨.name, "items"⟩, ⟨.punctuation, "("⟩, Token.ending,
           ⟨.punctuation, ")"⟩, Token.ending]
         wellNested := .block rfl (.plain rfl (.brackets rfl (.index .nil) rfl .nil)) .nil
         startsUncommented := by simp [StartsUncommented, Token.isFiller, Token.isIndent,
           Token.isNewline, Token.isComment]
         lineEnd := ⟨⟨.text, "\n"⟩, rfl⟩ }]
      ⟨⟨.text, "\n"⟩, rfl⟩]

theorem methodBlocks_read_back_lastItem :
    ((lastItem.entries "stacks").map Prod.fst).Nodup ∧
    ClassDef.read "Stack" "stacks" lastItem.tokens =
      ⟨.ok { name := "Stack", module := "stacks", tokens := lastItem.tokens,
             methods := Table.ofList (lastItem.entries "stacks"), index := some 35 }, []⟩ ∧
    (Table.ofList (lastItem.entries "stacks")).entries = lastItem.entries "stacks" :=
  have distinct : ((lastItem.entries "stacks").map Prod.fst).Nodup := by decide
  have readBack := lastItem.methodBlocks_read_back "stacks"
  ⟨distinct, readBack.1, readBack.2.1 distinct⟩

end ClassLayout

end MatlabDocs
