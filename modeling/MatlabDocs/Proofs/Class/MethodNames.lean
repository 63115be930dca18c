import MatlabDocs.Proofs.Class.MethodBodies

/-!
# Names of methods

A method is entered under its name.  Giving it another name changes its own entry and nothing else,
as long as no other method of the class has that name.  The names `get` and `set` make an exception:
a method of such a name is taken for one that reads or writes a property, although it names none,
and is left out.
-/

namespace MatlabDocs

open List BlockPart

namespace Table

variable {κ α : Type} [DecidableEq κ]

private theorem insertEntry_append (key : κ) (value : α) (first second : List (κ × α)) :
    insertEntry key value (first ++ second) =
      if key ∈ first.map Prod.fst then insertEntry key value first ++ second
      else first ++ insertEntry key value second := by
  induction first with
  | nil => rfl
  | cons entry first ih =>
    rw [cons_append, insertEntry, insertEntry, ih]
    by_cases same : entry.1 = key
    · simp [same]
    · by_cases member : key ∈ first.map Prod.fst
      · rw [if_neg same, if_neg same, if_pos member, if_pos (by simp [member]), cons_append]
      · rw [if_neg same, if_neg member, if_neg (by simpa [Ne.symm same] using member), cons_append]

/-- Entries between others stay as they are while other keys are put in. -/
private theorem exists_insertAll_between (entries first second : List (κ × α)) :
    ∃ before after, ∀ own : List (κ × α), (∀ entry ∈ own, entry.1 ∉ entries.map Prod.fst) →
      (⟨first ++ own ++ second⟩ : Table κ α).insertAll entries = ⟨before ++ own ++ after⟩ := by
  induction entries generalizing first second with
  | nil => exact ⟨first, second, fun own _ => rfl⟩
  | cons entry entries ih =>
    have apart : ∀ own : List (κ × α), (∀ other ∈ own, other.1 ∉ (entry :: entries).map Prod.fst) →
        entry.1 ∉ own.map Prod.fst ∧ ∀ other ∈ own, other.1 ∉ entries.map Prod.fst := by
      intro own apart
      refine ⟨?_, fun other isOwn member => apart other isOwn (mem_cons_of_mem _ member)⟩
      intro member
      obtain ⟨other, isOwn, same⟩ := mem_map.mp member
      exact apart other isOwn (by simp [same])
    by_cases member : entry.1 ∈ first.map Prod.fst
    · obtain ⟨before, after, later⟩ := ih (insertEntry entry.1 entry.2 first) second
      refine ⟨before, after, fun own isApart => ?_⟩
      rw [← later own (apart own isApart).2, insertAll, foldl_cons, ← insertAll]
      simp only [insert, append_assoc, insertEntry_append, if_pos member]
    · obtain ⟨before, after, later⟩ := ih first (insertEntry entry.1 entry.2 second)
      refine ⟨before, after, fun own isApart => ?_⟩
      obtain ⟨notOwn, othersApart⟩ := apart own isApart
      rw [← later own othersApart, insertAll, foldl_cons, ← insertAll]
      simp only [insert, append_assoc, insertEntry_append, if_neg member, if_neg notOwn]

theorem exists_ofList_between (first second : List (κ × α)) :
    ∃ before after, ∀ own : List (κ × α), own.length ≤ 1 →
      (∀ entry ∈ own, entry.1 ∉ (first ++ second).map Prod.fst) →
      ofList (first ++ own ++ second) = ⟨before ++ own ++ after⟩ := by
  obtain ⟨before, after, between⟩ := exists_insertAll_between second (ofList first).entries []
  refine ⟨before, after, fun own single apart => ?_⟩
  have unknown : ∀ entry ∈ own, entry.1 ∉ (ofList first).keys := by
    intro entry isOwn known
    obtain ⟨other, member, same⟩ := mem_map.mp known
    refine apart entry isOwn (mem_map.mpr ⟨other, ?_, same⟩)
    exact mem_append_left _ (mem_of_mem_ofList member)
  have inserted : (ofList first).insertAll own = ⟨(ofList first).entries ++ own ++ []⟩ := by
    match own, single, unknown with
    | [], _, _ => simp [insertAll]
    | [entry], _, unknown =>
      simp only [insertAll, foldl_cons, foldl_nil, append_nil]
      exact congrArg Table.mk (insertEntry_of_not_mem (unknown entry mem_cons_self))
  rw [ofList, insertAll_append, insertAll_append, ← ofList, inserted]
  refine between own fun entry isOwn member => apart entry isOwn ?_
  rw [map_append]
  exact mem_append_right _ member

end Table

theorem isAccessName_iff {name : Text} (undotted : '.' ∉ name) :
    isAccessName name ↔ name = ("get" : Text) ∨ name = ("set" : Text) := by
  have noDot : ∀ word : Text, name.startsWith (word ++ ".") = false := by
    intro word
    rw [Bool.eq_false_iff]
    intro starts
    obtain ⟨rest, rfl⟩ := isPrefixOf_iff_prefix.mp starts
    simp at undotted
  simp only [isAccessName, any_cons, any_nil, noDot, Bool.or_false, Bool.or_eq_true, beq_iff_eq]

def MethodDef.renamed (method : MethodDef) (name : Text) : MethodDef :=
  { method with name, signature := { method.signature with name := some name } }

namespace MethodLayout

variable (method : MethodLayout)

def withName (name : Text) : MethodLayout :=
  { method with name }

/-- What is documented of the method, whatever its name is. -/
def outlineEntry (module : Text) (attributes : Attributes) (name : Text) : Text × MethodDef :=
  (name, (method.entry module attributes).2.outline.renamed name)

theorem outline_entries_withName {name : Text} (attributes : Attributes) (module : Text)
    (undotted : '.' ∉ (method.withName name).bareName) :
    (MethodItem.entries attributes module (.method (method.withName name))).map
        (Prod.map id MethodDef.outline) =
      if (method.withName name).bareName = ("get" : Text) ∨
          (method.withName name).bareName = ("set" : Text) then []
      else [method.outlineEntry module attributes (method.withName name).bareName] := by
  rw [MethodItem.entries, isDocumented]
  simp only [Bool.not_eq_true', ← isAccessName_iff undotted]
  cases isAccessName (method.withName name).bareName <;> rfl

end MethodLayout

/-- The methods of the class that stand around the place. -/
def MethodPlace.otherEntries (place : MethodPlace) (module : Text) : List (Text × MethodDef) :=
  (place.entriesBefore module ++ place.entriesAfter module).map (Prod.map id MethodDef.outline)

namespace Definition

/-- Let a method be given any name without a dot that no other method of the class has.  Then the
class is read without a notice, the method is entered under its name between the same methods, and
all else that is documented of the class is the same.  Only if it is named `get` or `set`, it is
left out. -/
theorem renamed_method_keeps_class (place : MethodPlace) (method : MethodLayout) (module : Text) :
    ∃ before after : List (Text × MethodDef),
      Table.ofList (place.otherEntries module) = ⟨before ++ after⟩ ∧
      ∀ (name code : Text), '.' ∉ (method.withName name).bareName →
        (method.withName name).bareName ∉ (place.otherEntries module).map Prod.fst →
        lex (prepareCode code) = (place.fill (method.withName name)).tokens →
        ∃ definition,
          ofCode place.head.name module code = ⟨.ok (.class definition), []⟩ ∧
          definition.outline = { place.frame module with
            methods := ⟨before ++
              (if (method.withName name).bareName = ("get" : Text) ∨
                  (method.withName name).bareName = ("set" : Text) then []
                else [method.outlineEntry module place.attributes.attributes
                  (method.withName name).bareName]) ++ after⟩ } := by
  obtain ⟨before, after, between⟩ := Table.exists_ofList_between
    ((place.entriesBefore module).map (Prod.map id MethodDef.outline))
    ((place.entriesAfter module).map (Prod.map id MethodDef.outline))
  refine ⟨before, after, ?_, ?_⟩
  · have others := between [] (by simp) (by simp)
    simpa [MethodPlace.otherEntries] using others
  · intro name code undotted new written
    refine ⟨_, ofCode_of_classFile written module, ?_⟩
    rw [place.outline_fill, method.outline_entries_withName _ _ undotted]
    rw [MethodPlace.otherEntries, map_append] at new
    rw [between]
    · split <;> simp
    · intro entry isOwn
      split at isOwn
      · cases isOwn
      · rw [mem_singleton.mp isOwn]
        exact new

def measuredCode (name : Text) : Text :=
  "classdef Stack < handle\n% A stack.\nproperties\n items = 1;\nend\nmethods (Static)\n" ++
    ("function n = " : Text) ++ name ++
      ("(s)\n% Depth.\nn = 1;\nend\nfunction clear(s)\nend\nend\nend\n" : Text)

/-- A name that only starts like that of an access method is kept. -/
theorem renamed_method_keeps_class_getter :
    ∃ definition,
      ofCode "Stack" "p" (measuredCode "getDepth") = ⟨.ok (.class definition), []⟩ ∧
      stackDepth.outlineEntry "p" stackPlace.attributes.attributes "getDepth" ∈
        definition.outline.methods.entries := by
  obtain ⟨before, after, -, renamed⟩ := renamed_method_keeps_class stackPlace stackDepth "p"
  obtain ⟨definition, read, isOutline⟩ := renamed "getDepth" (measuredCode "getDepth")
    (by decide) (by decide) (by decide +kernel)
  refine ⟨definition, read, ?_⟩
  rw [isOutline, if_neg (by decide)]
  exact mem_append_left _ (mem_append_right _ mem_cons_self)

/-- A method of the name `get` is no access method of a property, but it is left out. -/
theorem get_method_left_out :
    (ofCode "Stack" "p" (measuredCode "depth")).result.map methodNames = .ok ["depth", "clear"] ∧
    (ofCode "Stack" "p" (measuredCode "get")).result.map methodNames = .ok ["clear"] := by
  decide +kernel

end Definition

end MatlabDocs
