import MatlabDocs.Proofs.Class.ClassFiles

/-!
# Classes whose reading never ends

The reading of a class goes on for ever just if one of its loops comes to a token that the
loop neither reads nor passes over.  Only three loops can: the one over the blocks of the
class, the one over an attribute list, and the one over a default value of several lines.
-/

set_option mvcgen.warning false

namespace MatlabDocs

open Reads

namespace ClassDef

def reading (name module : Text) (tokens : List Token) : Reads ClassState := do
  ClassState.readBlocks (← ClassState.readHead
    { position := 1, rest := tokens.drop 1, definition := { name, module, tokens } })

theorem reading_yields (name module : Text) (tokens : List Token) :
    Yields (reading name module tokens)
      (fun state => state.definition.module = module ∧ ClassState.Ready tokens none state)
      (fun stop => stop.state.definition.module = module ∧ stop.Explained tokens) := by
  have inside : ∀ start : ClassState, start.definition.module = module →
      ClassState.Ready tokens none start →
      Yields (do ClassState.readBlocks (← ClassState.readHead start))
        (fun state => state.definition.module = module ∧ ClassState.Ready tokens none state)
        (fun stop => stop.state.definition.module = module ∧ stop.Explained tokens) := by
    intro start isModule ready
    mvcgen with grind -ring -linarith [ClassState.Follows.module_eq]
  exact inside _ rfl ⟨List.drop_suffix _ _, List.nodup_nil, nofun⟩

theorem read_eq (name module : Text) (tokens : List Token) :
    read name module tokens =
      match reading name module tokens with
      | .ok state => ⟨.ok { state.definition with index := some state.position }, state.notices⟩
      | .error ⟨.exhausted, state⟩ =>
        ⟨.ok { state.definition with index := some state.position },
          state.notices ++ [Notice.parsingFailed module name]⟩
      | .error ⟨.expectedProperty, state⟩ => ⟨.ok state.definition, state.notices⟩
      | .error ⟨.stuck _, state⟩ => ⟨.error .endless, state.notices⟩
      | .error ⟨.fault fault, state⟩ => ⟨.error fault, state.notices⟩ :=
  rfl

/-- A reading never ends just if one of its loops is stuck, and then at a misfit. -/
theorem read_endless_iff (name module : Text) (tokens : List Token) :
    (read name module tokens).result = .error .endless ↔
      ∃ loop state, reading name module tokens = .error ⟨.stuck loop, state⟩ ∧
        Misfit tokens loop state.rest := by
  have yields := reading_yields name module tokens
  rw [read_eq]
  constructor
  · intro endless
    cases outcome : reading name module tokens with
    | ok state => simp [outcome] at endless
    | error stop =>
      cases (yields.of_error outcome).2 with
      | stuck misfit => exact ⟨_, _, rfl, misfit⟩
      | exhausted _ => simp [outcome] at endless
      | expectedProperty _ _ => simp [outcome] at endless
      | unknownProperty _ => simp [outcome] at endless
      | unnamedMethod _ _ => simp [outcome] at endless
      | unfinishedMethod _ _ => simp [outcome] at endless
  · rintro ⟨loop, state, outcome, -⟩
    rw [outcome]

end ClassDef

namespace ClassState

variable {tokens : List Token}

theorem progressing_self {α : Type} (loop : ReadingLoop) (state : ClassState)
    (next : state.rest.length < state.rest.length → Reads α) :
    progressing loop state state next = .error ⟨.stuck loop, state⟩ := by
  simp [progressing, halt]

variable {state : ClassState}

theorem readBlocks_misfit (misfit : Misfit tokens .blocks state.rest) :
    readBlocks state = .error ⟨.stuck .blocks, state⟩ := by
  obtain ⟨position, rest, definition, notices⟩ := state
  cases misfit with
  | @betweenBlocks token rest place foreign =>
    simp only [isBlockBound, Bool.or_eq_false_iff] at foreign
    obtain ⟨notCommentary, ⟨⟨⟨notEnding, notProperties⟩, notMethods⟩, notEvents⟩,
      notEnumeration⟩ := foreign
    rw [readBlocks, peek_cons, ok_bind, if_neg (Bool.eq_false_iff.mp notEnding),
      skipCommentary_cons notCommentary, ok_bind,
      readBlock_of_ne (ne_of_beq_false notProperties), ok_bind,
      readBlock_of_ne (ne_of_beq_false notMethods), ok_bind,
      readBlock_of_ne (ne_of_beq_false notEvents), ok_bind,
      readBlock_of_ne (ne_of_beq_false notEnumeration), ok_bind, progressing_self]

theorem readAttributeList_misfit (misfit : Misfit tokens .attributes state.rest) (known : List Text)
    (attributes : Attributes) :
    readAttributeList known attributes state = .error ⟨.stuck .attributes, state⟩ := by
  obtain ⟨position, rest, definition, notices⟩ := state
  cases misfit with
  | @inAttributes token rest place foreign =>
    simp only [isAttributePart, Bool.or_eq_false_iff] at foreign
    obtain ⟨⟨⟨⟨⟨notIndent, notName⟩, notBuiltin⟩, notComma⟩, notEquals⟩, notClosing⟩ := foreign
    rw [readAttributeList, peek_cons, ok_bind, if_neg (Bool.eq_false_iff.mp notClosing),
      skipIndent_cons notIndent, ok_bind, peek_cons, ok_bind]
    simp only [notName, notBuiltin, notComma, notEquals, Bool.false_and, Bool.false_or,
      Bool.false_eq_true, if_false, skipIndent_cons notIndent, ok_bind, peek_cons,
      progressing_self]

private theorem readDefault_misfit (misfit : Misfit tokens .defaultValue state.rest) {depth : Int}
    (inside : 0 < depth) (value : Text) :
    readDefault depth true value state = .error ⟨.stuck .defaultValue, state⟩ := by
  obtain ⟨position, rest, definition, notices⟩ := state
  cases misfit with
  | @inDefaultValue lineEnd token rest place newLine foreign =>
    simp only [isLineStart, Bool.or_eq_false_iff] at foreign
    obtain ⟨⟨⟨notIndent, notOpening⟩, notClosing⟩, notEllipsis⟩ := foreign
    rw [readDefault, peek_cons, ok_bind]
    simp only [inside, notOpening, notClosing, notEllipsis, decide_true, Bool.or_true,
      Bool.true_or, Bool.not_true, Bool.false_eq_true, if_false, if_true,
      skipIndent_cons notIndent, ok_bind, progressing_self]

end ClassState

namespace Definition

/-- The reading of a class goes on for ever just if a loop comes to a misfit, and each of the
three loops that can is kept there by any misfit. -/
theorem class_reading_endless_iff {code : Text} (isClass : IsClassCode code)
    (name module : Text) :
    let tokens := lex (prepareCode code)
    ((ofCode name module code).result = .error .endless ↔
      ∃ loop state, ClassDef.reading name module tokens = .error ⟨.stuck loop, state⟩ ∧
        Misfit tokens loop state.rest) ∧
    (∀ state : ClassState, Misfit tokens .blocks state.rest →
      state.readBlocks = .error ⟨.stuck .blocks, state⟩) ∧
    (∀ (state : ClassState) known attributes, Misfit tokens .attributes state.rest →
      state.readAttributeList known attributes = .error ⟨.stuck .attributes, state⟩) ∧
    (∀ (state : ClassState) depth value, Misfit tokens .defaultValue state.rest → 0 < depth →
      state.readDefault depth true value = .error ⟨.stuck .defaultValue, state⟩) := by
  intro tokens
  refine ⟨?_, ?_, ?_, ?_⟩
  · rw [← ClassDef.read_endless_iff, ofCode_of_isClassCode isClass]
    cases outcome : (ClassDef.read name module tokens).result with
    | ok definition => simp [Reading.map, Except.map, tokens, outcome]
    | error fault => simp [Reading.map, Except.map, tokens, outcome]
  · exact fun _ misfit => ClassState.readBlocks_misfit misfit
  · exact fun _ known attributes misfit =>
      ClassState.readAttributeList_misfit misfit known attributes
  · exact fun _ _ value misfit inside => ClassState.readDefault_misfit misfit inside value

def unindentedValue : Text :=
  "classdef A\n    properties\n        x = [1\n2]\n    end\nend\n"

theorem unindentedValue_endless :
    (ofCode "A" "p" unindentedValue).result = .error .endless := by
  decide +kernel

theorem class_reading_endless_iff_unindentedValue :
    IsClassCode unindentedValue ∧
      ∃ loop state, ClassDef.reading "A" "p" (lex (prepareCode unindentedValue)) =
        .error ⟨.stuck loop, state⟩ ∧ Misfit (lex (prepareCode unindentedValue)) loop state.rest :=
  have isClass : IsClassCode unindentedValue := by decide +kernel
  have endless : (ofCode "A" "p" unindentedValue).result = .error .endless := by decide +kernel
  ⟨isClass, (class_reading_endless_iff isClass "A" "p").1.mp endless⟩

end Definition

end MatlabDocs
