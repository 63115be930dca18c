import MatlabDocs.Proofs.Class.DeclarationBlocks

/-!
# Classes made of a property block

Reading a class with a property block in the usual layout gives back its properties in the
order in which they stand, each with its default value, its docstring and the attributes of
the block.
-/

namespace MatlabDocs

open ClassState DeclarationLayout

/-- A default value on one line, with the blanks around its equals sign. -/
structure ValueLayout where
  beforeEquals : List IndentToken
  beforeValue : List IndentToken
  tokens : List Token
  oneLine : ∀ token ∈ tokens, token.isNewline = false ∧ token.isComment = false
  balanced : tokens.countP isOpening = tokens.countP isClosing
  unindented : ∀ first ∈ tokens.head?, first.isIndent = false
  hasText : Token.concat tokens ≠ []

namespace ValueLayout

variable (value : ValueLayout)

def lineTokens : List Token :=
  value.beforeEquals.unattach ++ ⟨.punctuation, "="⟩ :: (value.beforeValue.unattach ++ value.tokens)

def text : Text :=
  (Token.concat value.tokens).trimRight fun c => c == ';' || c == ' '

theorem nested : ValueLine.Nested (bracketDepth value.tokens) [] := by
  show bracketDepth value.tokens ≤ 0
  rw [bracketDepth, value.balanced]
  omega

def layout : DefaultLayout :=
  { value with lines := [], nested := value.nested }

theorem lineTokens_layout : value.layout.lineTokens = value.lineTokens := by
  simp [DefaultLayout.lineTokens, DefaultLayout.valueTokens, layout, lineTokens]

theorem text_layout : value.layout.text = value.text := by
  simp [DefaultLayout.text, DefaultLayout.content, layout, text]

end ValueLayout

/-- The parts of a declaration in the order in which they stand. -/
structure PropertyLayout where
  comments : List CommentLine
  commentsIndented : ∀ line ∈ comments, line.indent ≠ []
  indent : List IndentToken
  indented : indent ≠ []
  name : Text
  value : Option ValueLayout
  blanks : List IndentToken
  comment : Option Text
  lineEnd : LineEndToken
  /-- Only blanks are taken off the end of a value. -/
  blanksBehindValue : value.isSome → ∀ blank ∈ blanks, blank.val.value = " "
  /-- An ellipsis behind a value would join the next line to it. -/
  endsBehindValue : value.isSome → ∀ text ∈ comment, text.startsWith "..." = false
  /-- A line end that is text would count as a part of the declaration. -/
  endsBehindName : value = none → comment = none → lineEnd.val.kind = .whitespace

namespace PropertyLayout

variable (layout : PropertyLayout) (attributes : Attributes) (properties : NameTable PropertyDef)

def commentTokens : List Token :=
  match layout.comment with
  | none => []
  | some text => [⟨.comment, text⟩]

def endTokens : List Token :=
  (match layout.value with
    | none => []
    | some value => value.lineTokens) ++
    (layout.blanks.unattach ++ (layout.commentTokens ++ [layout.lineEnd.val]))

def tokens : List Token :=
  layout.comments.flatMap CommentLine.tokens ++
    (layout.indent.unattach ++ ⟨.name, layout.name⟩ :: layout.endTokens)

/-- The comment lines above a property come before the comment behind it. -/
def docstring : Option Text :=
  match layout.comments with
  | [] => layout.comment.map (·.dropWhile (· == '%'))
  | lines => some (lines.flatMap CommentLine.text)

def completed (property : PropertyDef) : PropertyDef :=
  { property with
    default? := some (layout.value.map ValueLayout.text)
    docstring? := some (property.docstring?.getD (layout.comment.map (·.dropWhile (· == '%')))) }

/-- The comment lines enter their property anew; otherwise it may have been declared before. -/
def entered : PropertyDef :=
  match layout.comments with
  | [] => (properties.get? layout.name).getD { attributes }
  | lines => { attributes, docstring? := some (some (lines.flatMap CommentLine.text)) }

def enter : NameTable PropertyDef :=
  properties.insert layout.name (layout.completed (layout.entered attributes properties))

def property : PropertyDef where
  attributes
  default? := some (layout.value.map ValueLayout.text)
  docstring? := some layout.docstring

theorem enter_of_new {layout : PropertyLayout} {properties : NameTable PropertyDef}
    (isNew : properties.get? layout.name = none) (attributes : Attributes) :
    layout.enter attributes properties =
      properties.insert layout.name (layout.property attributes) := by
  unfold enter entered completed property docstring
  cases layout.comments with
  | nil => rw [isNew]; rfl
  | cons line lines => rfl

def declaration : DeclarationLayout where
  before := []
  spaced := forall_mem_empty isSpacing
  comments := layout.comments
  indent := layout.indent
  name := layout.name
  value := layout.value.map ValueLayout.layout
  blanks := layout.blanks
  below := none
  comment := layout.comment
  lineEnd := layout.lineEnd
  blanksBehindValue valued := layout.blanksBehindValue (by simpa using valued)
  endsBehindValue valued _ := layout.endsBehindValue (by simpa using valued)
  endsBehindName bare := layout.endsBehindName (by simpa using bare)
  belowValue := nofun

theorem tokens_declaration : layout.declaration.tokens = layout.tokens := by
  have ends : layout.declaration.endTokens = layout.endTokens := by
    obtain ⟨comments, commentsIndented, indent, indented, name, _ | value⟩ := layout
    · rfl
    · exact congrArg (· ++ _) value.lineTokens_layout
  rw [DeclarationLayout.tokens, ends]
  rfl

theorem enter_declaration :
    layout.declaration.enter attributes properties = layout.enter attributes properties := by
  have texts : (layout.value.map ValueLayout.layout).map DefaultLayout.text =
      layout.value.map ValueLayout.text := by
    rw [Option.map_map]
    exact Option.map_congr fun value _ => value.text_layout
  rw [DeclarationLayout.enter, DeclarationLayout.completed, enter, completed]
  exact congrArg (fun value => properties.insert layout.name
    { layout.entered attributes properties with
      default? := some value
      docstring? := some ((layout.entered attributes properties).docstring?.getD
        (layout.comment.map (·.dropWhile (· == '%')))) }) texts

def enterAll (members : List PropertyLayout) (attributes : Attributes)
    (properties : NameTable PropertyDef) : NameTable PropertyDef :=
  members.foldl (fun properties layout => layout.enter attributes properties) properties

variable (members : List PropertyLayout)

theorem areApart_declarations : areApart (members.map declaration) := by
  have indented : ∀ layout : PropertyLayout, layout.declaration.startsWithComment = false := by
    intro layout
    cases comments : layout.comments with
    | nil => simp [startsWithComment, declaration, comments]
    | cons line lines =>
      have notEmpty := layout.commentsIndented line (by simp [comments])
      simp [startsWithComment, declaration, comments, notEmpty]
  induction members with
  | nil => rfl
  | cons layout members ih =>
    rw [List.map_cons, areApart, ih, Bool.and_true]
    cases members with
    | nil => simp
    | cons next members => simp [indented next]

theorem enterAll_declarations (attributes : Attributes) :
    DeclarationLayout.enterAll (members.map declaration) attributes =
      enterAll members attributes := by
  funext properties
  rw [DeclarationLayout.enterAll, List.foldl_map, enterAll]
  simp [enter_declaration]

theorem flatMap_tokens_declarations :
    (members.map declaration).flatMap DeclarationLayout.tokens = members.flatMap tokens := by
  rw [List.flatMap_map]
  simp [tokens_declaration]

end PropertyLayout

/-- A property block, up to the line end behind its `end`. -/
structure PropertyBlockLayout where
  head : AttributePart ClassDef.propertyAttributes
  headEnd : LineEndToken
  members : List PropertyLayout
  beforeEnd : List Token
  spaced : ∀ token ∈ beforeEnd, isSpacing token
  lineEnd : LineEndToken

namespace PropertyBlockLayout

variable (block : PropertyBlockLayout)

def tokens : List Token :=
  ⟨.keyword, "properties"⟩ :: (block.head.tokens ++ block.headEnd.val ::
    (block.members.flatMap PropertyLayout.tokens ++
      (block.beforeEnd ++ [Token.ending, block.lineEnd.val])))

def enter : NameTable PropertyDef → NameTable PropertyDef :=
  PropertyLayout.enterAll block.members block.head.attributes

def declarations : DeclarationBlock where
  head := block.head
  headEnd := block.headEnd
  members := block.members.map PropertyLayout.declaration
  beforeEnd := block.beforeEnd
  spaced := block.spaced
  lineEnd := block.lineEnd

theorem isRead :
    ∃ passed left, BlockSort.properties.opening :: (passed ++ left) = block.tokens ∧
      (∀ token ∈ left, isCommentary token) ∧
      ∀ tail, ClassState.Consumes readProperties
        (BlockSort.properties.opening :: passed) tail (·.extend block.enter fun _ => []) := by
  have read := block.declarations.isRead
  rw [DeclarationBlock.tokens, DeclarationBlock.enter, declarations,
    attach_of_areApart (PropertyLayout.areApart_declarations block.members),
    PropertyLayout.flatMap_tokens_declarations, PropertyLayout.enterAll_declarations] at read
  exact read

def part : BlockPart where
  sort := .properties
  tokens := block.tokens
  enter := block.enter
  entries := fun _ => []
  isRead := block.isRead

end PropertyBlockLayout

theorem PropertyLayout.enterAll_of_nodup {members : List PropertyLayout}
    {properties : NameTable PropertyDef}
    (distinct : (properties.keys ++ members.map PropertyLayout.name).Nodup)
    (attributes : Attributes) :
    enterAll members attributes properties =
      properties.insertAll
        (members.map fun layout => (layout.name, layout.property attributes)) := by
  induction members generalizing properties with
  | nil => rfl
  | cons layout members ih =>
    have isNew : layout.name ∉ properties.keys := by
      intro member
      exact (List.nodup_append.mp distinct).2.2 _ member _ (by simp) rfl
    have entered := enter_of_new (Table.get?_of_not_mem isNew) attributes
    have keys : (properties.insert layout.name (layout.property attributes)).keys =
        properties.keys ++ [layout.name] := by
      simp [Table.keys, Table.insert, Table.insertEntry_of_not_mem isNew]
    have later := @ih (properties.insert layout.name (layout.property attributes))
      (by simpa [keys] using distinct)
    rw [enterAll, List.foldl_cons, entered]
    exact later

/-- A class without attributes, base classes and docstring that has only a property block. -/
structure PropertyClassLayout where
  blank : IndentToken
  name : Text
  lineEnd : LineEndToken
  attributes : AttributeLayout ClassDef.propertyAttributes
  headEnd : LineEndToken
  members : List PropertyLayout
  blockEnd : LineEndToken

namespace PropertyClassLayout

def tokens (layout : PropertyClassLayout) : List Token :=
  ⟨.keyword, "classdef"⟩ :: layout.blank.val :: ⟨.name, layout.name⟩ :: layout.lineEnd.val ::
    ⟨.keyword, "properties"⟩ :: (layout.attributes.tokens ++ layout.headEnd.val ::
      (layout.members.flatMap PropertyLayout.tokens ++
        [Token.ending, layout.blockEnd.val, Token.ending]))

def entries (layout : PropertyClassLayout) : List (Text × PropertyDef) :=
  layout.members.map fun member => (member.name, member.property layout.attributes.attributes)

def block (layout : PropertyClassLayout) : PropertyBlockLayout where
  head := layout.attributes.part
  headEnd := layout.headEnd
  members := layout.members
  beforeEnd := []
  spaced := nofun
  lineEnd := layout.blockEnd

private theorem enterAll_block {layout : PropertyClassLayout}
    (distinct : (layout.members.map PropertyLayout.name).Nodup) :
    BlockPart.enterAll [layout.block.part] {} = ⟨layout.entries⟩ := by
  have names : layout.entries.map Prod.fst = layout.members.map PropertyLayout.name := by
    simp [entries, Function.comp_def]
  calc
    BlockPart.enterAll [layout.block.part] {} =
        PropertyLayout.enterAll layout.members layout.attributes.attributes {} := rfl
    _ = Table.ofList layout.entries :=
        PropertyLayout.enterAll_of_nodup (by simpa [Table.keys] using distinct) _
    _ = ⟨layout.entries⟩ :=
        congrArg Table.mk (Table.entries_ofList (by rw [names]; exact distinct))

/-- The properties of a class under distinct names are read back as they stand, up to its last
`end` and without a notice. -/
theorem propertyBlock_read_back (layout : PropertyClassLayout)
    (distinct : (layout.members.map PropertyLayout.name).Nodup) (module : Text) :
    ClassDef.read layout.name module layout.tokens =
      ⟨.ok { name := layout.name, module, tokens := layout.tokens,
             properties := ⟨layout.entries⟩,
             index := some (layout.tokens.length - 1) }, []⟩ := by
  have read := ClassFile.read_bare layout.blank layout.name layout.lineEnd [layout.block.part]
    module
  have tokens : [layout.block.part].flatMap BlockPart.tokens ++ [Token.ending] =
      ⟨.keyword, "properties"⟩ :: (layout.attributes.tokens ++ layout.headEnd.val ::
        (layout.members.flatMap PropertyLayout.tokens ++
          [Token.ending, layout.blockEnd.val, Token.ending])) := by
    simp [PropertyBlockLayout.part, PropertyBlockLayout.tokens, block, AttributeLayout.part]
  rw [tokens, enterAll_block distinct] at read
  exact read

def counter : PropertyClassLayout where
  blank := .blank
  name := "Counter"
  lineEnd := .feed
  attributes := ⟨[.blank], some [⟨[], "Constant", by decide, []⟩,
    ⟨[.blank], "Hidden", by decide, []⟩]⟩
  headEnd := .feed
  members := [
    { comments := [⟨[.blank], "% First count.", .feed⟩]
      commentsIndented := by simp
      indent := [.blank], indented := by simp
      name := "start"
      value := some
        { beforeEquals := [.blank]
          beforeValue := [.blank]
          tokens := [⟨.punctuation, "["⟩, ⟨.integer, "1"⟩, ⟨.punctuation, "]"⟩, ⟨.punctuation, ";"⟩]
          oneLine := by decide, balanced := by decide, unindented := by decide
          hasText := by decide }
      blanks := [], comment := none, lineEnd := .feed
      blanksBehindValue := nofun, endsBehindValue := nofun, endsBehindName := nofun },
    { comments := [], commentsIndented := nofun
      indent := [.blank], indented := by simp
      name := "step", value := none
      blanks := [.blank], comment := some "% Added each time."
      lineEnd := .feed
      blanksBehindValue := nofun, endsBehindValue := nofun, endsBehindName := nofun }]
  blockEnd := .feed

theorem propertyBlock_read_back_counter :
    (counter.members.map PropertyLayout.name).Nodup ∧
    ClassDef.read "Counter" "counting" counter.tokens =
      ⟨.ok { name := "Counter", module := "counting", tokens := counter.tokens,
             properties := ⟨[
               ("start", { attributes := ⟨[("Constant", .flag true), ("Hidden", .flag true)]⟩
                           default? := some (some "[1]")
                           docstring? := some (some " First count.\n") }),
               ("step", { attributes := ⟨[("Constant", .flag true), ("Hidden", .flag true)]⟩
                          default? := some none
                          docstring? := some (some " Added each time.") })]⟩
             index := some 33 }, []⟩ :=
  have distinct : (counter.members.map PropertyLayout.name).Nodup := by decide
  ⟨distinct, counter.propertyBlock_read_back distinct "counting"⟩

def joinedLines : List Token :=
  [⟨.keyword, "classdef"⟩, ⟨.text, " "⟩, ⟨.name, "A"⟩, ⟨.whitespace, "\n"⟩,
   ⟨.keyword, "properties"⟩, ⟨.whitespace, "\n"⟩,
   ⟨.text, " "⟩, ⟨.name, "x"⟩, ⟨.text, " "⟩, ⟨.punctuation, "="⟩, ⟨.text, " "⟩, ⟨.integer, "1"⟩,
   ⟨.text, " "⟩, ⟨.comment, "... more"⟩, ⟨.whitespace, "\n"⟩,
   ⟨.text, " "⟩, ⟨.name, "y"⟩, ⟨.whitespace, "\n"⟩,
   Token.ending, ⟨.whitespace, "\n"⟩, Token.ending]

/-- The ellipsis is no comment behind the value: it joins the next line to it. -/
theorem joinedLines_properties :
    (ClassDef.read "A" "p" joinedLines).result.map (·.properties.entries) =
      .ok [("x", { attributes := {}
                   default? := some (some "1 \ny")
                   docstring? := some none })] := by
  decide +kernel

end PropertyClassLayout

end MatlabDocs
