import Mathlib.Logic.Function.Basic
import MatlabDocs.Proofs.Class.MethodBodies

/-!
# Indentation of class files

What is documented of a class does not depend on the white space at the start of its lines, with
one exception.  The content of a class file is its text without that white space, and two files of
the same content have the same members.  Only the docstring of a property may change: a comment
that is moved to the very start of the line below a value is taken for the comment of that value.
-/

namespace MatlabDocs

open List CommentLine PropertyDef BlockPart

open Function

section

variable {α β γ : Type} {read : α → β} {content : α → γ}

/-- If a part of each member determines what it is read as, these parts determine what the list
is read as. -/
theorem map_eq_of_factorsThrough (determined : read.FactorsThrough content)
    {first second : List α} (same : first.map content = second.map content) :
    first.map read = second.map read := by
  induction first generalizing second with
  | nil =>
    have empty : second = [] := by simpa using same.symm
    rw [empty]
  | cons member members ih =>
    cases second with
    | nil => simp at same
    | cons other others =>
      obtain ⟨head, tail⟩ := List.cons.inj same
      rw [map_cons, map_cons, determined head, ih tail]

theorem flatMap_eq_of_factorsThrough {read : α → List β} (determined : read.FactorsThrough content)
    {first second : List α} (same : first.map content = second.map content) :
    first.flatMap read = second.flatMap read := by
  rw [flatMap_def, flatMap_def, map_eq_of_factorsThrough determined same]

end

theorem CommentLine.text_factorsThrough : text.FactorsThrough comment := by
  intro first second same
  rw [text, text, same]

theorem AttributePart.attributes_factorsThrough {known : List Text} :
    (attributes : AttributePart known → Attributes).FactorsThrough tokens := by
  intro first second same
  have ends : Token.isIndent LineEndToken.feed.val = false ∧
      LineEndToken.feed.val.isPunctuation "(" = false := by
    decide
  have read := first.isRead LineEndToken.feed.val [] (fun _ => ends) 0
    { name := [], module := [], tokens := [] } []
  rw [same, second.isRead LineEndToken.feed.val [] (fun _ => ends)] at read
  exact (congrArg Prod.fst (Except.ok.inj read)).symm

/-! ## Properties -/

theorem ValueLine.text_factorsThrough : text.FactorsThrough tokens := by
  intro first second same
  rw [text, text, same]

/-- The lines of a value without the white space in front of them. -/
def DefaultLayout.lineContents (value : DefaultLayout) : List (List Token) :=
  value.tokens :: value.lines.map ValueLine.tokens

theorem DefaultLayout.text_factorsThrough : text.FactorsThrough lineContents := by
  intro first second same
  obtain ⟨firstLine, lines⟩ := List.cons.inj same
  rw [text, text, content, content, firstLine,
    flatMap_eq_of_factorsThrough ValueLine.text_factorsThrough lines]

structure DeclarationContent where
  comments : List Text
  name : Text
  value : Option (List (List Token))
  comment : Option Text
  deriving DecidableEq, Repr

namespace DeclarationLayout

def content (layout : DeclarationLayout) : DeclarationContent where
  comments := layout.comments.map CommentLine.comment
  name := layout.name
  value := layout.value.map DefaultLayout.lineContents
  comment := layout.comment

theorem valueText_factorsThrough :
    (fun layout : DeclarationLayout => layout.value.map DefaultLayout.text).FactorsThrough
      content := by
  intro first second same
  have values : first.value.map DefaultLayout.lineContents =
      second.value.map DefaultLayout.lineContents :=
    congrArg DeclarationContent.value same
  cases firstValue : first.value with
  | none =>
    have none : second.value = none := by simpa [firstValue] using values.symm
    simp [firstValue, none]
  | some value =>
    cases secondValue : second.value with
    | none => simp [firstValue, secondValue] at values
    | some other =>
      have lines : value.lineContents = other.lineContents := by
        simpa [firstValue, secondValue] using values
      simp [firstValue, secondValue, DefaultLayout.text_factorsThrough lines]

private theorem entered_factorsThrough : entered.FactorsThrough content := by
  intro first second same
  have name : first.name = second.name := congrArg DeclarationContent.name same
  have comments : first.comments.map CommentLine.comment =
      second.comments.map CommentLine.comment :=
    congrArg DeclarationContent.comments same
  have texts := flatMap_eq_of_factorsThrough CommentLine.text_factorsThrough comments
  funext attributes properties
  cases firstComments : first.comments with
  | nil =>
    have none : second.comments = [] := by simpa [firstComments] using comments.symm
    simp [entered, firstComments, none, name]
  | cons line lines =>
    cases secondComments : second.comments with
    | nil => simp [firstComments, secondComments] at comments
    | cons other others =>
      rw [firstComments, secondComments] at texts
      simp [entered, firstComments, secondComments, texts]

theorem enter_factorsThrough : enter.FactorsThrough content := by
  intro first second same
  have name : first.name = second.name := congrArg DeclarationContent.name same
  have comment : first.comment = second.comment := congrArg DeclarationContent.comment same
  have value := valueText_factorsThrough same
  dsimp only at value
  funext attributes properties
  simp [enter, completed, name, comment, value, entered_factorsThrough same]

theorem enterAll_factorsThrough : enterAll.FactorsThrough (List.map content) := by
  intro first second same
  have steps := map_eq_of_factorsThrough enter_factorsThrough same
  funext attributes properties
  have folded : ∀ members : List DeclarationLayout, enterAll members attributes properties =
      (members.map enter).foldl (fun properties step => step attributes properties) properties := by
    intro members
    rw [foldl_map]
    rfl
  rw [folded, folded, steps]

end DeclarationLayout

def PropertyDef.bare (property : PropertyDef) : PropertyDef :=
  { attributes := {}, default? := property.default? }

namespace DeclarationLayout

def bareEntry (layout : DeclarationLayout) : Text × PropertyDef :=
  (layout.name, { attributes := {}, default? := some (layout.value.map DefaultLayout.text) })

theorem bareEntry_factorsThrough : bareEntry.FactorsThrough content := by
  intro first second same
  have name : first.name = second.name := congrArg DeclarationContent.name same
  have value := valueText_factorsThrough same
  dsimp only at value
  rw [bareEntry, bareEntry, name, value]

variable (members : List DeclarationLayout)

/-- Which declaration takes a comment is seen in no name and no default value. -/
theorem map_bareEntry_attach : (attach members).map bareEntry = members.map bareEntry := by
  cases members with
  | nil => rfl
  | cons layout members =>
    rw [attach]
    induction members generalizing layout with
    | nil => rfl
    | cons next members ih =>
      obtain ⟨line, takes, _, shape⟩ | ⟨_, shape⟩ := layout.attachFrom_cons next members
      · rw [shape, map_cons, ih]
        rfl
      · rw [shape, map_cons, ih]
        rfl

theorem mapValues_enterAll (attributes : Attributes) (properties : NameTable PropertyDef) :
    (enterAll members attributes properties).mapValues bare =
      (properties.mapValues bare).insertAll (members.map bareEntry) := by
  induction members generalizing properties with
  | nil => rfl
  | cons layout members ih =>
    have first : (layout.enter attributes properties).mapValues bare =
        (properties.mapValues bare).insert layout.bareEntry.1 layout.bareEntry.2 :=
      congrArg Table.mk (Table.map_insertEntry bare layout.name _ properties.entries)
    calc
      (enterAll (layout :: members) attributes properties).mapValues bare =
          (enterAll members attributes (layout.enter attributes properties)).mapValues bare := rfl
      _ = _ := by rw [ih, first]; rfl

end DeclarationLayout

/-! ## Methods -/

/-- What is documented of a method, as it is written. -/
structure MethodContent where
  outputs : Option Text
  name : Text
  arguments : Option Text
  comments : List Text
  deriving DecidableEq, Repr

def MethodLayout.content (method : MethodLayout) : MethodContent where
  outputs := method.outputs.map OutputPart.text
  name := method.name
  arguments := method.arguments
  comments := method.comments.map comment

def MethodLayout.outlines (attributes : Attributes) (module : Text) (method : MethodLayout) :
    List (Text × MethodDef) :=
  (MethodItem.entries attributes module (.method method)).map (Prod.map id MethodDef.outline)

theorem MethodLayout.outlines_factorsThrough (attributes : Attributes) (module : Text) :
    (outlines attributes module).FactorsThrough content := by
  intro first second same
  have outputs : first.outputs.map OutputPart.text = second.outputs.map OutputPart.text :=
    congrArg MethodContent.outputs same
  have name : first.name = second.name := congrArg MethodContent.name same
  have arguments : first.arguments = second.arguments := congrArg MethodContent.arguments same
  have comments : first.comments.map comment = second.comments.map comment :=
    congrArg MethodContent.comments same
  have bareName : first.bareName = second.bareName := by
    rw [SignatureLayout.bareName, name]
    rfl
  have outputNames : first.outputNames = second.outputNames := by
    have read := congrArg (·.bind FunctionDef.outputNames) outputs
    simp only [Option.bind_map] at read
    exact read
  have argumentNames : first.argumentNames = second.argumentNames := by
    rw [SignatureLayout.argumentNames, arguments]
    rfl
  have docstring : first.docstring = second.docstring :=
    flatMap_eq_of_factorsThrough text_factorsThrough comments
  have entries : Prod.map id MethodDef.outline (first.entry module attributes) =
      Prod.map id MethodDef.outline (second.entry module attributes) := by
    simp [Prod.map, entry, MethodDef.outline, function, bareName, outputNames, argumentNames,
      docstring]
  have documented : first.isDocumented = second.isDocumented := by
    rw [isDocumented, bareName]
    rfl
  rw [outlines, outlines, MethodItem.entries, MethodItem.entries, documented]
  split
  · rw [map_singleton, map_singleton, entries]
  · rfl

namespace MethodItem

def method? : MethodItem → Option MethodLayout
  | method layout => some layout
  | _ => none

def methods (items : List MethodItem) : List MethodLayout :=
  items.filterMap method?

theorem map_outline_listEntries (items : List MethodItem) (attributes : Attributes)
    (module : Text) :
    (listEntries items attributes module).map (Prod.map id MethodDef.outline) =
      (methods items).flatMap (MethodLayout.outlines attributes module) := by
  induction items with
  | nil => rfl
  | cons item items ih =>
    rw [listEntries, flatMap_cons, map_append, ← listEntries, ih]
    cases item <;> rfl

end MethodItem

/-! ## Class files -/

/-- A block of a class as it is written. -/
inductive WrittenBlock where
  | properties (block : DeclarationBlock)
  | methods (block : MethodBlockLayout)
  | undocumented (sort : UndocumentedSort) (inner : List Token)
      (closed : ∀ token ∈ inner, token.isKeyword "end" = false) (lineEnd : LineEndToken)

inductive BlockContent where
  | properties (attributes : List Token) (members : List DeclarationContent)
  | methods (attributes : List Token) (members : List MethodContent)
  | undocumented (sort : UndocumentedSort)
  deriving DecidableEq, Repr

namespace WrittenBlock

def content : WrittenBlock → BlockContent
  | properties block => .properties block.head.tokens (block.members.map DeclarationLayout.content)
  | methods block =>
    .methods block.head.tokens ((MethodItem.methods block.items).map MethodLayout.content)
  | undocumented sort _ _ _ => .undocumented sort

def part : WrittenBlock → BlockPart
  | properties block => block.part
  | methods block => block.part
  | undocumented sort inner closed lineEnd => sort.part inner closed lineEnd

/-- No comment of the block stands where the declaration above it takes it. -/
def commentsApart : WrittenBlock → Bool
  | properties block => DeclarationLayout.areApart block.members
  | _ => true

def enter : WrittenBlock → NameTable PropertyDef → NameTable PropertyDef
  | properties block => DeclarationLayout.enterAll block.members block.head.attributes
  | _ => id

def bareEntries : WrittenBlock → List (Text × PropertyDef)
  | properties block => block.members.map DeclarationLayout.bareEntry
  | _ => []

variable (module : Text) (block : WrittenBlock)

def outlines : List (Text × MethodDef) :=
  (block.part.entries module).map (Prod.map id MethodDef.outline)

theorem enter_part {block : WrittenBlock} (apart : block.commentsApart) :
    block.part.enter = block.enter := by
  cases block with
  | properties block =>
    have asWritten := DeclarationLayout.attach_of_areApart apart
    exact congrArg (DeclarationLayout.enterAll · block.head.attributes) asWritten
  | methods block => rfl
  | undocumented sort inner closed lineEnd => rfl

theorem mapValues_enter_part (properties : NameTable PropertyDef) :
    (block.part.enter properties).mapValues bare =
      (properties.mapValues bare).insertAll block.bareEntries := by
  cases block with
  | properties block =>
    rw [bareEntries, ← DeclarationLayout.map_bareEntry_attach]
    exact DeclarationLayout.mapValues_enterAll _ block.head.attributes properties
  | methods block => rfl
  | undocumented sort inner closed lineEnd => rfl

/-- Blocks of the same sort that agree in all that is documented. -/
inductive Agree : WrittenBlock → WrittenBlock → Prop where
  | properties {block other : DeclarationBlock} (tokens : block.head.tokens = other.head.tokens)
      (members : block.members.map DeclarationLayout.content =
        other.members.map DeclarationLayout.content) :
      Agree (.properties block) (.properties other)
  | methods {block other : MethodBlockLayout} (tokens : block.head.tokens = other.head.tokens)
      (members : (MethodItem.methods block.items).map MethodLayout.content =
        (MethodItem.methods other.items).map MethodLayout.content) :
      Agree (.methods block) (.methods other)
  | undocumented {sort : UndocumentedSort} {inner others : List Token}
      {closed : ∀ token ∈ inner, token.isKeyword "end" = false}
      {othersClosed : ∀ token ∈ others, token.isKeyword "end" = false}
      {lineEnd otherEnd : LineEndToken} :
      Agree (.undocumented sort inner closed lineEnd)
        (.undocumented sort others othersClosed otherEnd)

theorem agree_of_content_eq {first second : WrittenBlock} (same : first.content = second.content) :
    Agree first second := by
  cases first with
  | properties block =>
    cases second with
    | properties other =>
      obtain ⟨tokens, members⟩ := BlockContent.properties.inj same
      exact .properties tokens members
    | methods other => contradiction
    | undocumented sort inner closed lineEnd => contradiction
  | methods block =>
    cases second with
    | properties other => contradiction
    | methods other =>
      obtain ⟨tokens, members⟩ := BlockContent.methods.inj same
      exact .methods tokens members
    | undocumented sort inner closed lineEnd => contradiction
  | undocumented sort inner closed lineEnd =>
    cases second with
    | properties other => contradiction
    | methods other => contradiction
    | undocumented sort inner closed lineEnd =>
      obtain rfl := BlockContent.undocumented.inj same
      exact .undocumented

theorem enter_factorsThrough : enter.FactorsThrough content := by
  intro first second same
  cases agree_of_content_eq same with
  | properties tokens members =>
    rw [enter, enter, AttributePart.attributes_factorsThrough tokens,
      DeclarationLayout.enterAll_factorsThrough members]
  | methods tokens members => rfl
  | undocumented => rfl

theorem bareEntries_factorsThrough : bareEntries.FactorsThrough content := by
  intro first second same
  cases agree_of_content_eq same with
  | properties tokens members =>
    exact map_eq_of_factorsThrough DeclarationLayout.bareEntry_factorsThrough members
  | methods tokens members => rfl
  | undocumented => rfl

private theorem outlines_methods (block : MethodBlockLayout) :
    outlines module (.methods block) =
      (MethodItem.methods block.items).flatMap
        (MethodLayout.outlines block.head.attributes module) :=
  MethodItem.map_outline_listEntries block.items block.head.attributes module

theorem outlines_factorsThrough : (outlines module).FactorsThrough content := by
  intro first second same
  cases agree_of_content_eq same with
  | properties tokens members => rfl
  | methods tokens members =>
    rw [outlines_methods, outlines_methods, AttributePart.attributes_factorsThrough tokens]
    apply flatMap_eq_of_factorsThrough _ members
    apply MethodLayout.outlines_factorsThrough
  | undocumented => rfl

end WrittenBlock

abbrev Commentary := { tokens : List Token // ∀ token ∈ tokens, ClassState.isCommentary token }

theorem isCommentary_of_mem_unattach (indent : List IndentToken) :
    ∀ token ∈ indent.unattach, ClassState.isCommentary token := by
  intro token member
  apply ClassState.isCommentary_of_isSpacing
  exact ClassState.isSpacing_of_mem_unattach indent token member

/-- A class file as it is written, with white space and comments behind each block. -/
structure WrittenClass where
  head : HeadLayout
  lead : Commentary
  apart : ∀ first ∈ lead.val.head?, first.isIndent = false ∧ first.isComment = false
  blocks : List (WrittenBlock × Commentary)
  rest : List Token

/-- What a class file says: its text without white space at the start of lines, without the
bodies of its methods and without the comments between its members. -/
structure ClassFileContent where
  attributes : List Token
  name : Text
  bases : List (List Token)
  comments : List Text
  blocks : List BlockContent
  deriving DecidableEq, Repr

def BasesLayout.words (bases : BasesLayout) : List (List Token) :=
  bases.front.map BaseLayout.word ++ [bases.last.word]

def HeadLayout.baseWords (head : HeadLayout) : List (List Token) :=
  (head.bases.map BasesLayout.words).getD []

theorem HeadLayout.baseTexts_eq (head : HeadLayout) :
    head.baseTexts = head.baseWords.map Token.concat := by
  rw [baseTexts, baseWords]
  cases head.bases with
  | none => rfl
  | some bases => simp [BasesLayout.texts, BasesLayout.words, BaseLayout.text]

namespace WrittenClass

variable (written : WrittenClass)

def content : ClassFileContent where
  attributes := written.head.attributes.tokens
  name := written.head.name
  bases := written.head.baseWords
  comments := written.head.comments.map comment
  blocks := written.blocks.map fun block => block.1.content

def file : ClassFile where
  head := written.head.part
  lead := written.lead.val
  commentary := written.lead.property
  apart := written.apart
  blocks := written.blocks.map fun block => block.1.part.followedBy block.2.val block.2.property
  rest := written.rest

def commentsApart : Bool :=
  written.blocks.all fun block => block.1.commentsApart

theorem enterAll_file {written : WrittenClass} (apart : written.commentsApart)
    (properties : NameTable PropertyDef) :
    enterAll written.file.blocks properties =
      (written.blocks.map fun block => block.1.enter).foldl
        (fun properties enter => enter properties) properties := by
  have entered : (written.blocks.map fun block => block.1.part.enter) =
      written.blocks.map fun block => block.1.enter := by
    apply map_congr_left
    intro block member
    exact WrittenBlock.enter_part (all_eq_true.mp apart block member)
  rw [enterAll, file, foldl_map, ← entered, foldl_map]
  rfl

theorem mapValues_enterAll_parts (blocks : List (WrittenBlock × Commentary))
    (properties : NameTable PropertyDef) :
    (enterAll (blocks.map fun block => block.1.part.followedBy block.2.val
        block.2.property) properties).mapValues bare =
      (properties.mapValues bare).insertAll (blocks.flatMap fun block => block.1.bareEntries) := by
  induction blocks generalizing properties with
  | nil => rfl
  | cons block blocks ih =>
    rw [flatMap_cons, Table.insertAll_append, ← block.1.mapValues_enter_part, ← ih]
    rfl

theorem outline_methods (module : Text) :
    (Table.ofList (allEntries written.file.blocks module)).mapValues MethodDef.outline =
      Table.ofList (written.blocks.flatMap fun block => block.1.outlines module) := by
  rw [Table.ofList, Table.mapValues_insertAll, allEntries, file, flatMap_map, map_flatMap]
  rfl

end WrittenClass

def ClassDef.skeleton (definition : ClassDef) : ClassDef :=
  { definition.outline with properties := definition.properties.mapValues bare }

namespace WrittenClass

variable {first second : WrittenClass}

section

variable (same : second.content = first.content)
include same

theorem outline_eq_of_content_eq (module : Text) :
    (second.file.definition module).outline =
      { (first.file.definition module).outline with
        properties := enterAll second.file.blocks {} } := by
  have name : second.head.name = first.head.name := congrArg ClassFileContent.name same
  have attributes : second.head.attributes.attributes = first.head.attributes.attributes :=
    AttributePart.attributes_factorsThrough (congrArg ClassFileContent.attributes same)
  have bases : second.head.baseTexts = first.head.baseTexts := by
    rw [HeadLayout.baseTexts_eq, HeadLayout.baseTexts_eq]
    exact congrArg (·.bases.map Token.concat) same
  have docstring : second.head.docstring = first.head.docstring :=
    flatMap_eq_of_factorsThrough text_factorsThrough (congrArg ClassFileContent.comments same)
  have methods : (second.blocks.flatMap fun block => block.1.outlines module) =
      first.blocks.flatMap fun block => block.1.outlines module :=
    flatMap_eq_of_factorsThrough
      (fun _ _ same => WrittenBlock.outlines_factorsThrough module same)
      (congrArg ClassFileContent.blocks same)
  simp only [ClassDef.outline, ClassFile.definition, outline_methods, methods]
  simp [file, HeadLayout.part, name, attributes, bases, docstring]

/-- Names and default values of the properties are the same wherever the comments stand. -/
theorem skeleton_eq_of_content_eq (module : Text) :
    (second.file.definition module).skeleton = (first.file.definition module).skeleton := by
  have entries : (second.blocks.flatMap fun block => block.1.bareEntries) =
      first.blocks.flatMap fun block => block.1.bareEntries :=
    flatMap_eq_of_factorsThrough
      (fun _ _ same => WrittenBlock.bareEntries_factorsThrough same)
      (congrArg ClassFileContent.blocks same)
  have properties : (second.file.definition module).properties.mapValues bare =
      (first.file.definition module).properties.mapValues bare := by
    have read := mapValues_enterAll_parts second.blocks {}
    rw [entries, ← mapValues_enterAll_parts first.blocks {}] at read
    exact read
  rw [ClassDef.skeleton, ClassDef.skeleton, properties, outline_eq_of_content_eq same]

/-- If no comment strays in either file, the docstrings of the properties are the same as well. -/
private theorem properties_eq_of_content_eq (firstApart : first.commentsApart)
    (secondApart : second.commentsApart) :
    enterAll second.file.blocks {} = enterAll first.file.blocks {} := by
  have entered : (second.blocks.map fun block => block.1.enter) =
      first.blocks.map fun block => block.1.enter :=
    map_eq_of_factorsThrough
      (fun _ _ same => WrittenBlock.enter_factorsThrough same)
      (congrArg ClassFileContent.blocks same)
  rw [enterAll_file secondApart, enterAll_file firstApart, entered]

end

end WrittenClass

namespace Definition

/-- Two class files that differ only in the indentation of their lines are both read without a
notice.  They have the same attributes, base classes, docstring and methods, and properties of the
same names and default values.  The properties have the same docstrings as well, unless a comment
stands at the very start of the line below a value. -/
theorem class_outline_of_reindented (first second : WrittenClass)
    (same : second.content = first.content) {code reindented : Text}
    (written : lex (prepareCode code) = first.file.tokens)
    (rewritten : lex (prepareCode reindented) = second.file.tokens) (module : Text) :
    ∃ definition other : ClassDef,
      ofCode first.head.name module code = ⟨.ok (.class definition), []⟩ ∧
      ofCode first.head.name module reindented = ⟨.ok (.class other), []⟩ ∧
      definition = first.file.definition module ∧
      other.skeleton = definition.skeleton ∧
      (first.commentsApart → second.commentsApart → other.outline = definition.outline) := by
  have name : second.head.name = first.head.name := congrArg ClassFileContent.name same
  have read := ofCode_of_classFile rewritten module
  refine ⟨first.file.definition module, second.file.definition module,
    ofCode_of_classFile written module, ?_, rfl, ?_, ?_⟩
  · rw [← name]
    exact read
  · exact WrittenClass.skeleton_eq_of_content_eq same module
  · intro firstApart secondApart
    rw [WrittenClass.outline_eq_of_content_eq same,
      WrittenClass.properties_eq_of_content_eq same firstApart secondApart]
    rfl

def boxCode (outer inner : Text) : Text :=
  ("classdef Box < handle\n" : Text) ++ outer ++ ("% A box.\n" : Text) ++ outer ++
    ("properties\n" : Text) ++ inner ++ ("% Sides.\n" : Text) ++ inner ++
    ("sides = [1\n " : Text) ++ inner ++ ("2]; % all\n" : Text) ++ inner ++
    ("lid = 3\n " : Text) ++ inner ++ ("% Color.\n" : Text) ++ inner ++ ("color\n" : Text) ++
    outer ++ ("end\n" : Text) ++ outer ++ ("methods\n" : Text) ++ inner ++
    ("function open(b)\n" : Text) ++ inner ++ ("% Opens.\n" : Text) ++ inner ++
    ("end\n" : Text) ++ outer ++ ("end\nend\n" : Text)

def boxProperties (outer inner : List IndentToken) : DeclarationBlock where
  head := (⟨[], none⟩ : AttributeLayout ClassDef.propertyAttributes).part
  headEnd := .feed
  members := [
    { before := [], spaced := forall_mem_empty ClassState.isSpacing
      comments := [⟨inner, "% Sides.", .feed⟩]
      indent := inner, name := "sides"
      value := some
        { beforeEquals := [.blank], beforeValue := [.blank]
          tokens := [⟨.punctuation, "["⟩, ⟨.integer, "1"⟩]
          oneLine := by decide, unindented := by decide, hasText := by decide
          lines := [
            { lineEnd := .feed, indent := .blank :: inner
              tokens := [⟨.integer, "2"⟩, ⟨.punctuation, "]"⟩, ⟨.punctuation, ";"⟩]
              oneLine := by decide, starts := by simp [Token.isIndent] }]
          nested := by simp only [ValueLine.Nested]; decide }
      blanks := [.blank], below := none, comment := some "% all", lineEnd := .feed
      blanksBehindValue := fun _ => forall_mem_singleton.mpr rfl
      endsBehindValue := fun _ _ => by decide
      endsBehindName := nofun, belowValue := nofun },
    { before := [], spaced := forall_mem_empty ClassState.isSpacing
      comments := [], indent := inner, name := "lid"
      value := some
        { beforeEquals := [.blank], beforeValue := [.blank], tokens := [⟨.integer, "3"⟩]
          oneLine := by decide, unindented := by decide, hasText := by decide
          lines := [], nested := by rw [ValueLine.Nested]; decide }
      blanks := [], below := none, comment := none, lineEnd := .feed
      blanksBehindValue := nofun, endsBehindValue := nofun
      endsBehindName := nofun, belowValue := nofun },
    { before := [], spaced := forall_mem_empty ClassState.isSpacing
      comments := [⟨.blank :: inner, "% Color.", .feed⟩]
      indent := inner, name := "color", value := none
      blanks := [], below := none, comment := none, lineEnd := .feed
      blanksBehindValue := nofun, endsBehindValue := nofun
      endsBehindName := fun _ _ => rfl, belowValue := nofun }]
  beforeEnd := outer.unattach
  spaced := ClassState.isSpacing_of_mem_unattach outer
  lineEnd := .feed

def boxClass (outer inner : List IndentToken) (method : MethodLayout) : WrittenClass where
  head :=
    { attributes := (⟨[.blank], none⟩ : AttributeLayout ClassDef.classAttributes).part
      beforeName := [], tight := fun _ => rfl
      name := "Box"
      afterName := [.blank]
      bases := some ⟨[], forall_mem_nil _, handleBase⟩
      lineEnd := .feed
      comments := [⟨outer, "% A box.", .feed⟩]
      indent := outer }
  lead := ⟨[], forall_mem_empty ClassState.isCommentary⟩
  apart := nofun
  blocks := [
    (.properties (boxProperties outer inner), ⟨outer.unattach, isCommentary_of_mem_unattach outer⟩),
    (.methods
      { head := (⟨[], none⟩ : AttributeLayout ClassDef.methodAttributes).part
        headEnd := .feed
        items := .method method :: outer.map fun blank =>
          .commentary blank.val (isCommentary_of_mem_unattach [blank] blank.val (by simp))
        lineEnd := .feed }, ⟨[], forall_mem_empty ClassState.isCommentary⟩)]
  rest := [LineEndToken.feed.val]

def openMethod : MethodLayout where
  keyword := "function"
  isFunction := MethodLayout.strip_function
  gap := " "
  outputs := none
  name := "open"
  arguments := some "b"
  afterSignature := "\n"
  comments := [⟨[], "% Opens.", .feed⟩]
  body := []
  wellNested := .nil
  startsUncommented := startsUncommented_nil
  lineEnd := .feed

def indentedOpen : MethodLayout :=
  { openMethod with
    keyword := "    function"
    isFunction := by decide
    afterSignature := "\n    "
    body := List.replicate 4 IndentToken.blank.val
    wellNested := .plain rfl (.plain rfl (.plain rfl (.plain rfl .nil)))
    startsUncommented := by
      simp [StartsUncommented, Token.isFiller, Token.isIndent, IndentToken.blank] }

def indentedBox : WrittenClass :=
  boxClass [.blank, .blank] (List.replicate 4 .blank) indentedOpen

def plainBox : WrittenClass :=
  boxClass [] [] openMethod

theorem class_outline_of_reindented_box :
    plainBox.content = indentedBox.content ∧
    lex (prepareCode (boxCode "  " "    ")) = indentedBox.file.tokens ∧
    lex (prepareCode (boxCode "" "")) = plainBox.file.tokens ∧
    ∃ definition other : ClassDef,
      ofCode "Box" "p" (boxCode "  " "    ") = ⟨.ok (.class definition), []⟩ ∧
      ofCode "Box" "p" (boxCode "" "") = ⟨.ok (.class other), []⟩ ∧
      definition = indentedBox.file.definition "p" ∧ other.outline = definition.outline := by
  have same : plainBox.content = indentedBox.content := by decide
  have written : lex (prepareCode (boxCode "  " "    ")) = indentedBox.file.tokens := by
    decide +kernel
  have rewritten : lex (prepareCode (boxCode "" "")) = plainBox.file.tokens := by
    decide +kernel
  obtain ⟨definition, other, read, reread, asWritten, _, outlines⟩ :=
    class_outline_of_reindented indentedBox plainBox same written rewritten "p"
  have apart : indentedBox.commentsApart ∧ plainBox.commentsApart := by decide
  exact ⟨same, written, rewritten, definition, other, read, reread, asWritten,
    outlines apart.1 apart.2⟩

def propertyDocstrings : Definition → List (Text × Option (Option Text))
  | .class definition =>
    definition.properties.entries.map fun entry => (entry.1, entry.2.docstring?)
  | _ => []

def commentedCode (indent : Text) : Text :=
  ("classdef A\n    properties\n        x = 1\n" : Text) ++ indent ++
    ("% doc of y\n        y\n    end\nend\n" : Text)

/-- At the start of its line, the comment above a property is taken for that of the value above
it. -/
theorem unindented_comment_moves :
    (ofCode "A" "p" (commentedCode "        ")).result.map propertyDocstrings =
      .ok [("x", some none), ("y", some (some " doc of y\n"))] ∧
    (ofCode "A" "p" (commentedCode "")).result.map propertyDocstrings =
      .ok [("x", some (some " doc of y")), ("y", some none)] := by
  decide +kernel

end Definition

end MatlabDocs
