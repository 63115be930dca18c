import MatlabDocs.Proofs.Class.MethodBlocks
import MatlabDocs.Proofs.Class.PropertyBlocks

/-!
# Bodies of methods

What is documented of a class does not depend on the bodies of its methods, as long as the blocks
and brackets of a body are closed.  A body may be replaced by any other, and the class keeps its
attributes, base classes, properties and methods.
-/

namespace MatlabDocs

open BlockPart

namespace Table

variable {κ α β : Type} [DecidableEq κ]

def mapValues (change : α → β) (table : Table κ α) : Table κ β :=
  ⟨table.entries.map (Prod.map id change)⟩

theorem map_insertEntry (change : α → β) (key : κ) (value : α) (entries : List (κ × α)) :
    (insertEntry key value entries).map (Prod.map id change) =
      insertEntry key (change value) (entries.map (Prod.map id change)) := by
  induction entries with
  | nil => rfl
  | cons entry entries ih =>
    simp only [insertEntry, List.map_cons, Prod.map_fst, id_eq]
    split
    · rfl
    · rw [List.map_cons, ih]

theorem mapValues_insertAll (change : α → β) (table : Table κ α) (entries : List (κ × α)) :
    mapValues change (table.insertAll entries) =
      (mapValues change table).insertAll (entries.map (Prod.map id change)) := by
  induction entries generalizing table with
  | nil => rfl
  | cons entry entries ih =>
    have first : mapValues change (table.insert entry.1 entry.2) =
        (mapValues change table).insert entry.1 (change entry.2) :=
      congrArg Table.mk (map_insertEntry change entry.1 entry.2 table.entries)
    calc
      mapValues change (table.insertAll (entry :: entries)) =
          mapValues change ((table.insert entry.1 entry.2).insertAll entries) := rfl
      _ = _ := by rw [ih, first]; rfl

end Table

/-- What is documented of a method: all but its tokens. -/
def MethodDef.outline (method : MethodDef) : MethodDef :=
  { method with signature := { method.signature with tokens := [] } }

/-- What is documented of a class: all but its tokens and their number. -/
def ClassDef.outline (definition : ClassDef) : ClassDef :=
  { definition with
    tokens := []
    methods := definition.methods.mapValues MethodDef.outline
    index := none }

/-- A sequence of statements in which all blocks and brackets are closed. -/
structure MethodBody where
  tokens : List Token
  wellNested : WellNested tokens
  startsUncommented : StartsUncommented tokens

def MethodLayout.withBody (method : MethodLayout) (body : MethodBody) : MethodLayout :=
  { method with
    body := body.tokens
    wellNested := body.wellNested
    startsUncommented := body.startsUncommented }

/-- A class file with a place for a method in one of its blocks. -/
structure MethodPlace where
  head : HeadPart
  lead : List Token
  commentary : ∀ token ∈ lead, ClassState.isCommentary token
  apart : ∀ first ∈ lead.head?, first.isIndent = false ∧ first.isComment = false
  blocksBefore : List BlockPart
  attributes : AttributePart ClassDef.methodAttributes
  headEnd : LineEndToken
  itemsBefore : List MethodItem
  itemsAfter : List MethodItem
  lineEnd : LineEndToken
  gap : List Token
  gapCommentary : ∀ token ∈ gap, ClassState.isCommentary token
  blocksAfter : List BlockPart
  rest : List Token

namespace MethodPlace

def block (place : MethodPlace) (method : MethodLayout) : MethodBlockLayout where
  head := place.attributes
  headEnd := place.headEnd
  items := place.itemsBefore ++ .method method :: place.itemsAfter
  lineEnd := place.lineEnd

variable (place : MethodPlace) (method : MethodLayout)

def fill : ClassFile where
  head := place.head
  lead := place.lead
  commentary := place.commentary
  apart := place.apart
  blocks := place.blocksBefore ++
    (place.block method).part.followedBy place.gap place.gapCommentary :: place.blocksAfter
  rest := place.rest

theorem enterAll_fill (properties : NameTable PropertyDef) :
    enterAll (place.fill method).blocks properties =
      enterAll (place.blocksBefore ++ place.blocksAfter) properties := by
  simp only [enterAll, fill, List.foldl_append, List.foldl_cons]
  rfl

variable (place : MethodPlace) (method : MethodLayout) (module : Text)

def entriesBefore : List (Text × MethodDef) :=
  allEntries place.blocksBefore module ++
    MethodItem.listEntries place.itemsBefore place.attributes.attributes module

def entriesAfter : List (Text × MethodDef) :=
  MethodItem.listEntries place.itemsAfter place.attributes.attributes module ++
    allEntries place.blocksAfter module

theorem allEntries_fill :
    allEntries (place.fill method).blocks module =
      place.entriesBefore module ++
        MethodItem.entries place.attributes.attributes module (.method method) ++
          place.entriesAfter module := by
  have own : ((place.block method).part.followedBy place.gap place.gapCommentary).entries module =
      MethodItem.listEntries (place.itemsBefore ++ .method method :: place.itemsAfter)
        place.attributes.attributes module :=
    rfl
  simp [allEntries, fill, own, MethodItem.listEntries, entriesBefore, entriesAfter]

/-- What is documented of the class apart from its methods. -/
def frame : ClassDef where
  name := place.head.name
  module
  tokens := []
  docstring := place.head.docstring
  attributes := place.head.attributes
  bases := place.head.bases
  properties := enterAll (place.blocksBefore ++ place.blocksAfter) {}

theorem outline_fill :
    ((place.fill method).definition module).outline =
      { place.frame module with
        methods := Table.ofList
          ((place.entriesBefore module).map (Prod.map id MethodDef.outline) ++
            (MethodItem.entries place.attributes.attributes module (.method method)).map
              (Prod.map id MethodDef.outline) ++
            (place.entriesAfter module).map (Prod.map id MethodDef.outline)) } := by
  have methods : ∀ entries : List (Text × MethodDef), (Table.ofList entries).mapValues
      MethodDef.outline = Table.ofList (entries.map (Prod.map id MethodDef.outline)) :=
    Table.mapValues_insertAll MethodDef.outline {}
  simp only [ClassDef.outline, ClassFile.definition, methods, enterAll_fill, allEntries_fill,
    List.map_append]
  rfl

end MethodPlace

theorem MethodItem.outline_entries_withBody (method : MethodLayout) (body : MethodBody)
    (attributes : Attributes) (module : Text) :
    (entries attributes module (.method (method.withBody body))).map
        (Prod.map id MethodDef.outline) =
      (entries attributes module (.method method)).map (Prod.map id MethodDef.outline) := by
  have sameName : (method.withBody body).isDocumented = method.isDocumented := rfl
  simp only [entries, sameName]
  split <;> rfl

namespace Definition

theorem ofCode_of_classFile {file : ClassFile} {code : Text}
    (written : lex (prepareCode code) = file.tokens) (module : Text) :
    ofCode file.head.name module code = ⟨.ok (.class (file.definition module)), []⟩ := by
  have isClass : IsClassCode code := by
    rw [IsClassCode, written]
    rfl
  rw [ofCode_of_isClassCode isClass, written, file.read_tokens]
  rfl

/-- A class is read without a notice whatever stands in the body of one of its methods, and what
is documented of it stays the same. -/
theorem class_outline_of_replaced_body (place : MethodPlace) (method : MethodLayout)
    (body : MethodBody) {code replaced : Text}
    (written : lex (prepareCode code) = (place.fill method).tokens)
    (rewritten : lex (prepareCode replaced) = (place.fill (method.withBody body)).tokens)
    (module : Text) :
    ∃ first second : ClassDef,
      ofCode place.head.name module code = ⟨.ok (.class first), []⟩ ∧
      ofCode place.head.name module replaced = ⟨.ok (.class second), []⟩ ∧
      first = (place.fill method).definition module ∧ second.outline = first.outline :=
  ⟨_, _, ofCode_of_classFile written module, ofCode_of_classFile rewritten module, rfl,
    by rw [place.outline_fill, place.outline_fill, MethodItem.outline_entries_withBody]⟩

def stackCode (body : Text) : Text :=
  "classdef Stack < handle\n% A stack.\nproperties\n items = 1;\nend\nmethods (Static)\n" ++
    ("function n = depth(s)\n% Depth.\n" : Text) ++ body ++
      ("end\nfunction clear(s)\nend\nend\nend\n" : Text)

def handleBase : BaseLayout :=
  ⟨[.blank], [⟨.name, "handle"⟩], by decide, by decide, []⟩

def stackPlace : MethodPlace where
  head := HeadLayout.part
    { attributes := (⟨[.blank], none⟩ : AttributeLayout ClassDef.classAttributes).part
      beforeName := [], tight := (HeadLayout.bare .blank "Stack" .feed).tight
      name := "Stack"
      afterName := [.blank]
      bases := some ⟨[], nofun, handleBase⟩
      lineEnd := .feed
      comments := [⟨[], "% A stack.", .feed⟩]
      indent := [] }
  lead := []
  commentary := forall_mem_empty ClassState.isCommentary
  apart := apart_nil
  blocksBefore := [PropertyBlockLayout.part
    { head := (⟨[], none⟩ : AttributeLayout ClassDef.propertyAttributes).part
      headEnd := .feed
      members := [
        { comments := [], commentsIndented := List.forall_mem_nil _
          indent := [.blank], indented := nofun
          name := "items"
          value := some
            { beforeEquals := [.blank], beforeValue := [.blank]
              tokens := [⟨.integer, "1"⟩, ⟨.punctuation, ";"⟩]
              oneLine := by decide, balanced := by decide, unindented := by decide
              hasText := by decide }
          blanks := [], comment := none, lineEnd := .feed
          blanksBehindValue := nofun, endsBehindValue := nofun, endsBehindName := nofun }]
      beforeEnd := [], spaced := forall_mem_empty ClassState.isSpacing
      lineEnd := .feed }]
  attributes := (⟨[.blank], some [⟨[], "Static", ClassLayout.static_mem_methodAttributes, []⟩]⟩ :
    AttributeLayout ClassDef.methodAttributes).part
  headEnd := .feed
  itemsBefore := []
  itemsAfter := [.method
    { keyword := "function", isFunction := MethodLayout.strip_function, gap := " ", outputs := none
      name := "clear", arguments := some "s", afterSignature := "\n"
      comments := [], body := [], wellNested := .nil, startsUncommented := startsUncommented_nil
      lineEnd := .feed }]
  lineEnd := .feed
  gap := []
  gapCommentary := forall_mem_empty ClassState.isCommentary
  blocksAfter := []
  rest := [LineEndToken.feed.val]

def stackDepth : MethodLayout where
  keyword := "function"
  isFunction := MethodLayout.strip_function
  gap := " "
  outputs := some ⟨"n ", by decide, " "⟩
  name := "depth"
  arguments := some "s"
  afterSignature := "\n"
  comments := [⟨[], "% Depth.", .feed⟩]
  body := [⟨.name, "n"⟩, ⟨.text, " "⟩, ⟨.punctuation, "="⟩, ⟨.text, " "⟩, ⟨.integer, "1"⟩,
    ⟨.punctuation, ";"⟩, ⟨.whitespace, "\n"⟩]
  wellNested := .plain rfl (.plain rfl (.plain rfl (.plain rfl (.plain rfl (.plain rfl
    (.plain rfl .nil))))))
  startsUncommented := by
    simp [StartsUncommented, Token.isFiller, Token.isIndent, Token.isNewline, Token.isComment]
  lineEnd := .feed

def loopBody : MethodBody where
  tokens := [⟨.keyword, "for"⟩, ⟨.text, " "⟩, ⟨.name, "k"⟩, ⟨.text, " "⟩, ⟨.punctuation, "="⟩,
    ⟨.text, " "⟩, ⟨.name, "s"⟩, ⟨.punctuation, "."⟩, ⟨.name, "at"⟩, ⟨.punctuation, "("⟩,
    Token.ending, ⟨.punctuation, ")"⟩, ⟨.whitespace, "\n"⟩, ⟨.name, "n"⟩, ⟨.text, " "⟩,
    ⟨.punctuation, "="⟩, ⟨.text, " "⟩, ⟨.string, "\x27"⟩, ⟨.string, "a\x27"⟩, ⟨.punctuation, ";"⟩,
    ⟨.whitespace, "\n"⟩, Token.ending, ⟨.whitespace, "\n"⟩]
  wellNested := .block rfl (.plain rfl (.plain rfl (.plain rfl (.plain rfl (.plain rfl (.plain rfl
    (.plain rfl (.plain rfl (.brackets rfl (.index .nil) rfl (.plain rfl (.plain rfl (.plain rfl
      (.plain rfl (.plain rfl (.plain rfl (.plain rfl (.plain rfl (.plain rfl .nil))))))))))))))))))
    (.plain rfl .nil)
  startsUncommented := by
    simp [StartsUncommented, Token.isFiller, Token.isIndent, Token.isNewline, Token.isComment]

theorem class_outline_of_replaced_body_stack :
    lex (prepareCode (stackCode "n = 1;\n")) = (stackPlace.fill stackDepth).tokens ∧
    lex (prepareCode (stackCode "for k = s.at(end)\nn = \x27a\x27;\nend\n")) =
      (stackPlace.fill (stackDepth.withBody loopBody)).tokens ∧
    ∃ first second : ClassDef,
      ofCode "Stack" "p" (stackCode "n = 1;\n") = ⟨.ok (.class first), []⟩ ∧
      ofCode "Stack" "p" (stackCode "for k = s.at(end)\nn = \x27a\x27;\nend\n") =
        ⟨.ok (.class second), []⟩ ∧
      first = (stackPlace.fill stackDepth).definition "p" ∧ second.outline = first.outline :=
  have written : lex (prepareCode (stackCode "n = 1;\n")) =
      (stackPlace.fill stackDepth).tokens := by
    decide +kernel
  have rewritten : lex (prepareCode (stackCode "for k = s.at(end)\nn = \x27a\x27;\nend\n")) =
      (stackPlace.fill (stackDepth.withBody loopBody)).tokens := by
    decide +kernel
  ⟨written, rewritten,
    class_outline_of_replaced_body stackPlace stackDepth loopBody written rewritten "p"⟩

def methodNames : Definition → List Text
  | .class definition => definition.methods.keys
  | _ => []

/-- The name of a field is counted as the start of a block, which hides the method below. -/
theorem argumentsField_hides_method :
    (ofCode "Stack" "p" (stackCode "n = s.items;\n")).result.map methodNames =
      .ok ["depth", "clear"] ∧
    (ofCode "Stack" "p" (stackCode "n = s.arguments;\n")).result.map methodNames =
      .ok ["depth"] := by
  decide +kernel

end Definition

end MatlabDocs
