import MatlabDocs.Proofs.Class.BlockPlaces
import MatlabDocs.Proofs.Class.ClassHeads

/-!
# Truth values of attributes

The words `true` and `false` are known function names to the lexer, and the reader of an attribute
list passes over such names.  So an attribute with either value is set, like one without a value.
A class is read as if the truth values in one of its attribute lists were not there.
-/

namespace MatlabDocs

open List AttributeItem

variable {known : List Text} {scope : AttributeScope}

namespace AttributeItem

variable (item : AttributeItem known)

def withoutTruth : AttributeItem known :=
  if item.isTruth then { item with setting := none } else item

theorem name_withoutTruth : item.withoutTruth.name = item.name := by
  unfold withoutTruth
  split <;> rfl

theorem recorded_withoutTruth : item.withoutTruth.recorded = item.recorded := by
  unfold withoutTruth
  split
  · rename_i isTruth
    rw [recorded, recorded, if_pos isTruth]
    rfl
  · rfl

theorem length_withoutTruth_le : item.withoutTruth.tokens.length ≤ item.tokens.length := by
  unfold withoutTruth
  split
  · simp only [tokens, Option.map_none, Option.getD_none, append_nil, length_append]
    omega
  · exact Nat.le_refl _

end AttributeItem

theorem length_parted_le {α β : Type} (sign : α) {first second : β → List α}
    (shorter : ∀ item, (first item).length ≤ (second item).length) (items : List β) :
    (parted sign (items.map first)).length ≤ (parted sign (items.map second)).length := by
  have others : ∀ items : List β, ((items.map first).flatMap (sign :: ·)).length ≤
      ((items.map second).flatMap (sign :: ·)).length := by
    intro items
    induction items with
    | nil => exact Nat.le_refl _
    | cons item items ih =>
      have here := shorter item
      simp only [map_cons, flatMap_cons, length_append, length_cons]
      omega
  cases items with
  | nil => exact Nat.le_refl _
  | cons item items =>
    simp only [map_cons, parted, length_append]
    exact Nat.add_le_add (shorter item) (others items)

namespace AttributeList

variable (list : AttributeList known)

def withoutTruth : AttributeList known :=
  { list with items := list.items.map AttributeItem.withoutTruth }

def truthLength : Nat :=
  list.tokens.length - list.withoutTruth.tokens.length

theorem attributes_withoutTruth : list.withoutTruth.attributes = list.attributes := by
  simp [attributes, withoutTruth, Function.comp_def, name_withoutTruth,
    recorded_withoutTruth]

theorem length_withoutTruth_add :
    list.withoutTruth.tokens.length + list.truthLength = list.tokens.length := by
  have shorter := @length_parted_le Token _ ⟨.punctuation, ","⟩
    (fun item : AttributeItem known => item.withoutTruth.tokens) AttributeItem.tokens
    AttributeItem.length_withoutTruth_le list.items
  have length : list.withoutTruth.tokens.length ≤ list.tokens.length := by
    simp only [tokens, withoutTruth, List.map_map, Function.comp_def, length_append, length_cons]
    omega
  rw [truthLength]
  omega

/-- The last attribute of a name decides, and either truth value sets it. -/
theorem get?_attributes_of_isTruth {item : AttributeItem known}
    {earlier later : List (AttributeItem known)} (items : list.items = earlier ++ item :: later)
    (isTruth : item.isTruth) (last : ∀ other ∈ later, other.name ≠ item.name) :
    list.attributes.get? item.name = some (.flag true) := by
  have absent : ((later.map fun item => (item.name, item.recorded)).reverse.lookup item.name) =
      none := by
    rw [lookup_eq_none_iff]
    intro entry member
    obtain ⟨other, isLater, rfl⟩ := mem_map.mp (mem_reverse.mp member)
    simpa using (last other isLater).symm
  have recorded : item.recorded = .flag true := by rw [recorded, if_pos isTruth]
  rw [attributes, Table.get?_ofList, items]
  simp [lookup_append, absent, recorded]

end AttributeList

/-- Where in a class file an attribute list may stand: behind the keyword of the class, or behind
the keyword of one of its blocks. -/
inductive AttributePlace : AttributeScope → Type where
  | head (name : Text) : AttributePlace .ofClass
  | properties (front : ClassFront) : AttributePlace .ofProperties
  | methods (front : ClassFront) : AttributePlace .ofMethods

namespace AttributePlace

open ClassState Relocation

def className : AttributePlace scope → Text
  | head name => name
  | properties front => front.head.name
  | methods front => front.head.name

def tokens : AttributePlace scope → List Token
  | head _ => [⟨.keyword, "classdef"⟩]
  | properties front => front.tokens ++ [BlockSort.properties.opening]
  | methods front => front.tokens ++ [BlockSort.methods.opening]

theorem isClassCode (place : AttributePlace scope) {code : Text} {rest : List Token}
    (lexed : lex (prepareCode code) = place.tokens ++ rest) : Definition.IsClassCode code := by
  rw [Definition.IsClassCode, lexed]
  cases place <;> rfl

private theorem readAttributes_lists_state {move : Relocation} {first second : AttributeList known}
    (same : second.attributes = first.attributes)
    (length : first.tokens.length + move.shift = second.tokens.length) (rest : List Token)
    (position : Nat) (definition : ClassDef) (notices : List Notice) :
    readAttributes known ⟨position, second.tokens ++ rest, move.definition definition, notices⟩ =
      Prod.map id move.state <$> move.reads
        (readAttributes known ⟨position, first.tokens ++ rest, definition, notices⟩) := by
  rw [readAttributes_attributeList, readAttributes_attributeList, same, ← length, ← Nat.add_assoc]
  rfl

/-- In every place, a list can be exchanged for one of the same attributes. -/
private theorem read_of_attributes_eq (place : AttributePlace scope)
    {first second : AttributeList scope.names} (same : second.attributes = first.attributes)
    {shift : Nat} (length : first.tokens.length + shift = second.tokens.length)
    (rest : List Token) (module : Text) :
    ClassDef.read place.className module (place.tokens ++ (second.tokens ++ rest)) =
      (ClassDef.read place.className module (place.tokens ++ (first.tokens ++ rest))).map
        (Relocation.definition { shift, tokens := place.tokens ++ (second.tokens ++ rest) }) := by
  cases place with
  | head name =>
    apply Relocation.read_of_reading_eq
    have read := @readAttributes_lists_state _
      { shift, tokens := tokens (head name) ++ (second.tokens ++ rest) } _ _ same length rest 1
      { name, module, tokens := tokens (head name) ++ (first.tokens ++ rest) } []
    simp only [tokens, singleton_append, drop_one, tail_cons, readHead_eq, bind_assoc]
    refine (congrArg (· >>= _) read).trans ?_
    simp [readNamed_state, readBlocks_state]
    rfl
  | properties front =>
    have regrouped : ∀ rest, tokens (properties front) ++ rest =
        front.tokens ++ BlockSort.properties.opening :: rest := by
      simp [tokens]
    rw [regrouped, regrouped]
    apply front.read_of_block_eq .properties
    intro position definition notices
    simp only [BlockSort.read, readProperties, advance_one]
    refine (congrArg (· >>= _) (@readAttributes_lists_state _ { shift, tokens := _ } _ _ same length
      rest (position + 1) definition notices)).trans ?_
    simp [readDeclarations_state]
    rfl
  | methods front =>
    have regrouped : ∀ rest, tokens (methods front) ++ rest =
        front.tokens ++ BlockSort.methods.opening :: rest := by
      simp [tokens]
    rw [regrouped, regrouped]
    apply front.read_of_block_eq .methods
    intro position definition notices
    simp only [BlockSort.read, readMethods, advance_one]
    refine (congrArg (· >>= _) (@readAttributes_lists_state _ { shift, tokens := _ } _ _ same length
      rest (position + 1) definition notices)).trans ?_
    simp [readMethodList_state]
    rfl

end AttributePlace

namespace Definition

/-- Either truth value sets its attribute.  The attribute list of a class or of one of its blocks is
read up to its closing parenthesis, the last attribute of a name decides what is found for it, and
`true` and `false` are both found as true.  The class is read like the one in which the truth
values are left out of the list, up to the number of tokens. -/
theorem truth_values_only_set (place : AttributePlace scope) (list : AttributeList scope.names)
    {code rest : Text} {before : Char} (inLine : before ≠ '\n')
    (written : lex (prepareCode code) =
      place.tokens ++ lexFrom .code (some before) (list.text ++ rest)) (module : Text) :
    (∀ position definition notices,
      ClassState.readAttributes scope.names
          ⟨position, lexFrom .code (some before) (list.text ++ rest), definition, notices⟩ =
        .ok (list.attributes, ⟨position + list.tokens.length, lexFrom .code (some ')') rest,
          definition, notices⟩)) ∧
    (∀ earlier item later, list.items = earlier ++ item :: later → item.isTruth →
      (∀ other ∈ later, other.name ≠ item.name) →
      list.attributes.get? item.name = some (.flag true)) ∧
    ∃ reading : Reading ClassDef,
      (∀ plain, lex (prepareCode plain) =
          place.tokens ++ lexFrom .code (some before) (list.withoutTruth.text ++ rest) →
        ofCode place.className module plain = reading.map .class) ∧
      ofCode place.className module code = (reading.map fun definition =>
        { definition with
          tokens := lex (prepareCode code)
          index := definition.index.map (· + list.truthLength) }).map .class := by
  have lexed : ∀ list : AttributeList scope.names,
      lexFrom .code (some before) (list.text ++ rest) =
        list.tokens ++ lexFrom .code (some ')') rest := by
    intro list
    have lexed := list.lexedAs inLine rest
    rwa [LexedAs, list.getLastD_text before] at lexed
  rw [lexed] at written ⊢
  refine ⟨fun _ _ _ => ClassState.readAttributes_attributeList list _,
    fun _ _ _ items isTruth last => list.get?_attributes_of_isTruth items isTruth last,
    ClassDef.read place.className module
      (place.tokens ++ (list.withoutTruth.tokens ++ lexFrom .code (some ')') rest)), ?_, ?_⟩
  · intro plain rewritten
    rw [lexed] at rewritten
    rw [ofCode_of_isClassCode (place.isClassCode rewritten), rewritten]
  · rw [ofCode_of_isClassCode (place.isClassCode written), written,
      place.read_of_attributes_eq list.attributes_withoutTruth.symm list.length_withoutTruth_add]
    rfl

def tankCode (attributes : Text) : Text :=
  "classdef Tank\nproperties" ++ attributes ++ "\nx\nend\nend\n"

def tankPlace : AttributePlace .ofProperties :=
  .properties
    { head := (HeadLayout.bare .blank "Tank" .feed).part
      lead := [], commentary := forall_mem_empty ClassState.isCommentary, apart := apart_nil
      blocks := [] }

theorem access_mem_names : ("Access" : Text) ∈ AttributeScope.ofProperties.names := by
  decide

def tankAttributes : AttributeList AttributeScope.ofProperties.names where
  indent := [.blank]
  inner := []
  items :=
    [⟨⟨[], "Constant", by decide, [.blank]⟩, some ⟨[.blank], .truth false, []⟩⟩,
      ⟨⟨[.blank], "Access", access_mem_names, []⟩,
        some ⟨[], .word ⟨"private", by decide⟩ (by decide +kernel), []⟩⟩]

theorem truth_values_only_set_tank :
    's' ≠ '\n' ∧
    lex (prepareCode (tankCode " (Constant = false, Access=private)")) = tankPlace.tokens ++
      lexFrom .code (some 's') (tankAttributes.text ++ "\nx\nend\nend\n".toList) ∧
    tankAttributes.attributes.get? "Constant" = some (.flag true) ∧
    ∃ reading : Reading ClassDef,
      ofCode "Tank" "m" (tankCode " (Constant , Access=private)") = reading.map .class ∧
      ofCode "Tank" "m" (tankCode " (Constant = false, Access=private)") =
        (reading.map fun definition =>
          { definition with
            tokens := lex (prepareCode (tankCode " (Constant = false, Access=private)"))
            index := definition.index.map (· + 3) }).map .class := by
  have inLine : 's' ≠ '\n' := by decide
  have written : lex (prepareCode (tankCode " (Constant = false, Access=private)")) =
      tankPlace.tokens ++
        lexFrom .code (some 's') (tankAttributes.text ++ "\nx\nend\nend\n".toList) := by
    decide +kernel
  have rewritten : lex (prepareCode (tankCode " (Constant , Access=private)")) =
      tankPlace.tokens ++ lexFrom .code (some 's')
        (tankAttributes.withoutTruth.text ++ "\nx\nend\nend\n".toList) := by
    decide +kernel
  have length : tankAttributes.truthLength = 3 := by decide
  obtain ⟨_, isSet, reading, plain, read⟩ :=
    truth_values_only_set tankPlace tankAttributes inLine written "m"
  rw [length] at read
  exact ⟨inLine, written, isSet [] _ _ rfl (by decide) (by decide), reading, plain _ rewritten,
    read⟩

def attribute? (property : Option Text) (name : Text) : Definition → Option AttributeValue
  | .class definition =>
    match property with
    | none => definition.attributes.get? name
    | some property => (definition.properties.get? property).bind (·.attributes.get? name)
  | _ => none

/-- An attribute that is set to false is found as true, for a property and for a class. -/
theorem false_attribute_found_true :
    (ofCode "A" "p"
        "classdef A\n    properties (Hidden = false)\n        x\n    end\nend\n").result.map
          (attribute? (some "x") "Hidden") = .ok (some (.flag true)) ∧
    (ofCode "A" "p" "classdef (Hidden = false) A\nend\n").result.map
        (attribute? none "Hidden") = .ok (some (.flag true)) := by
  decide +kernel

end Definition

end MatlabDocs
