import MatlabDocs.Proofs.Table
import MatlabDocs.Reference.Lookup

/-!
# What lookups find

A lookup goes through the full names that its scope gives to a name, and takes the first that is
entered.  All of them end in the name, so nothing else is found.  A narrow lookup that finds none
of them goes through all entries, so it fails only if no object of an admitted type has the name.
-/

namespace MatlabDocs

open List NameScope

/-- A full name is that of an object with the name: it is the name, or has it behind a dot. -/
def IsNamed (full name : Text) : Prop :=
  full = name ∨ '.' :: name <:+ full

namespace NameScope

variable (scope : NameScope)

def classPath : Option Text := do
  dotted (← given scope.module) (← given scope.class?)

/-- The scopes of a narrow lookup, from the innermost on. -/
def narrowScopes : List Text :=
  scope.classPath.toList ++ (given scope.module).toList

def plainScopes (role name : Text) : List Text :=
  if role == "mod" then [] else
    (given scope.class?).toList ++ ((given scope.module).toList ++ (scope.classPath.toList ++
      ((if role == "exc" && !name.contains '.' then ["exceptions".toList] else []) ++
        if (role == "func" || role == "meth") && !name.contains '.' then ["object".toList]
        else [])))

end NameScope

namespace ReferenceTables

variable {tables : ReferenceTables} {scope : NameScope} {role name : Text} {types : List Text}
  {found : Match}

theorem find?_eq_some_iff :
    tables.find? name = some found ↔ found.1 = name ∧ tables.objects.get? name = some found.2 := by
  rw [find?, Option.map_eq_some_iff]
  constructor
  · rintro ⟨entry, isEntry, rfl⟩
    exact ⟨rfl, isEntry⟩
  · rintro ⟨rfl, isEntry⟩
    exact ⟨found.2, isEntry, rfl⟩

theorem findTyped?_eq_some_iff :
    tables.findTyped? types name = some found ↔
      found.1 = name ∧ tables.objects.get? name = some found.2 ∧ found.2.type ∈ types := by
  rw [findTyped?, Option.filter_eq_some_iff, find?_eq_some_iff, and_assoc, contains_iff_mem]

section

variable {lookup : Text → Option Match}

@[simp] theorem firstMatch?_nil : firstMatch? [] = none := rfl

@[simp] theorem firstMatch?_cons (first : Option Match) (lookups : List (Option Match)) :
    firstMatch? (first :: lookups) = first.or (firstMatch? lookups) := by
  cases first <;> rfl

theorem findSome?_map_toList (scopeName : Option Text) :
    (scopeName.toList.map (dotted · name)).findSome? lookup =
      (scopeName.map (dotted · name)).bind lookup := by
  cases scopeName <;> simp

private theorem findSome?_map_ite (condition : Bool) (scopeName : Text) :
    ((if condition then [scopeName] else []).map (dotted · name)).findSome? lookup =
      if condition then lookup (dotted scopeName name) else none := by
  cases condition <;> simp

end

theorem findPlain_eq (tables : ReferenceTables) (scope : NameScope) (role name : Text) :
    tables.findPlain scope role name =
      (name :: (scope.plainScopes role name).map (dotted · name)).findSome? tables.find? := by
  rw [findPlain, findSome?_cons]
  cases tables.find? name with
  | some found => rfl
  | none =>
    dsimp only
    rw [plainScopes]
    split
    · rfl
    · simp only [map_append, findSome?_append, findSome?_map_toList, findSome?_map_ite,
        firstMatch?_cons, firstMatch?_nil, Option.or_none, classPath]
      cases given scope.module <;> cases given scope.class? <;> rfl

/-- A narrow lookup takes the first name that is entered with one of the types, or else all
entries with one of the types whose full name ends in the name. -/
theorem findNarrow_eq (tables : ReferenceTables) (scope : NameScope) (types : List Text)
    (name : Text) :
    tables.findNarrow scope types name =
      match (scope.narrowScopes.map (dotted · name) ++ [name]).findSome?
        (tables.findTyped? types) with
      | some found => [found]
      | none => tables.objects.entries.filter fun entry =>
        Text.endsWith entry.1 ('.' :: name) && types.contains entry.2.type := by
  rw [findNarrow]
  simp only [narrowScopes, map_append, findSome?_append, findSome?_map_toList,
    firstMatch?_cons, firstMatch?_nil, Option.or_assoc, findSome?_singleton, Option.or_none,
    classPath]
  cases given scope.module <;> cases given scope.class? <;> rfl

theorem isNamed_of_mem_map_dotted {scopes : List Text} {full : Text}
    (member : full ∈ scopes.map (dotted · name)) : IsNamed full name := by
  obtain ⟨scopeName, _, rfl⟩ := mem_map.mp member
  exact .inr ⟨scopeName, by simp [dotted]⟩

theorem of_mem_findNarrow (distinct : tables.objects.keys.Nodup)
    (member : found ∈ tables.findNarrow scope types name) :
    tables.objects.get? found.1 = some found.2 ∧ IsNamed found.1 name ∧ found.2.type ∈ types := by
  rw [findNarrow_eq] at member
  split at member
  · rename_i first isFirst
    obtain rfl := mem_singleton.mp member
    obtain ⟨full, isTried, isFound⟩ := exists_of_findSome?_eq_some isFirst
    obtain ⟨rfl, entered, admitted⟩ := findTyped?_eq_some_iff.mp isFound
    refine ⟨entered, ?_, admitted⟩
    rcases mem_append.mp isTried with inScope | isName
    · exact isNamed_of_mem_map_dotted inScope
    · exact .inl (mem_singleton.mp isName)
  · obtain ⟨entered, test⟩ := mem_filter.mp member
    obtain ⟨ends, admitted⟩ := Bool.and_eq_true_iff.mp test
    exact ⟨Table.get?_of_mem distinct entered, .inr (isSuffixOf_iff_suffix.mp ends),
      contains_iff_mem.mp admitted⟩

/-- What has the name and one of the types is not hidden by the names that are tried first. -/
private theorem findNarrow_ne_nil {full : Text} {entry : ObjectEntry}
    (entered : tables.objects.get? full = some entry) (named : IsNamed full name)
    (admitted : entry.type ∈ types) : tables.findNarrow scope types name ≠ [] := by
  rw [findNarrow_eq]
  split
  · exact cons_ne_nil _ _
  · rename_i noFirst
    rcases named with rfl | ends
    · have notFound : tables.findTyped? types full = none :=
        findSome?_eq_none_iff.mp noFirst full (mem_append_right _ (mem_singleton_self full))
      have isFound : tables.findTyped? types full = some (full, entry) :=
        findTyped?_eq_some_iff.mpr ⟨rfl, entered, admitted⟩
      rw [notFound] at isFound
      cases isFound
    · refine ne_nil_of_mem (mem_filter.mpr ⟨Table.mem_of_get? entered, ?_⟩)
      exact Bool.and_eq_true_iff.mpr ⟨isSuffixOf_iff_suffix.mpr ends, contains_iff_mem.mpr admitted⟩

theorem findNarrow_eq_nil_iff (distinct : tables.objects.keys.Nodup) :
    tables.findNarrow scope types name = [] ↔
      ∀ full entry, tables.objects.get? full = some entry → entry.type ∈ types →
        ¬IsNamed full name := by
  constructor
  · intro nothing full entry entered admitted named
    exact findNarrow_ne_nil entered named admitted nothing
  · intro none
    refine eq_nil_iff_forall_not_mem.mpr fun found member => ?_
    obtain ⟨entered, named, admitted⟩ := of_mem_findNarrow distinct member
    exact none found.1 found.2 entered admitted named

theorem of_findPlain_eq_some (isFound : tables.findPlain scope role name = some found) :
    tables.objects.get? found.1 = some found.2 ∧ IsNamed found.1 name := by
  rw [findPlain_eq] at isFound
  obtain ⟨full, isTried, isEntry⟩ := exists_of_findSome?_eq_some isFound
  obtain ⟨rfl, entered⟩ := find?_eq_some_iff.mp isEntry
  refine ⟨entered, ?_⟩
  rcases mem_cons.mp isTried with isName | inScope
  · exact .inl isName
  · exact isNamed_of_mem_map_dotted inScope

theorem withoutCall_cases (name : Text) :
    name = withoutCall name ++ "()" ∨ withoutCall name = name ∧ ¬"()".toList <:+ name := by
  rw [withoutCall]
  split
  · rename_i ends
    obtain ⟨front, rfl⟩ := isSuffixOf_iff_suffix.mp ends
    left
    simp
  · rename_i ends
    exact .inr ⟨rfl, fun suffix => ends (isSuffixOf_iff_suffix.mpr suffix)⟩

theorem findObjects_eq (tables : ReferenceTables) (scope : NameScope) (role name : Text)
    (narrow : Bool) :
    tables.findObjects scope role name narrow =
      if withoutCall name = [] then []
      else if narrow then
        ((typesForRole? role).map fun types =>
          tables.findNarrow scope types (withoutCall name)).getD []
      else (tables.findPlain scope role (withoutCall name)).toList := by
  rw [findObjects]
  cases typesForRole? role <;> rfl

theorem length_findObjects_plain (tables : ReferenceTables) (scope : NameScope) (role name : Text) :
    (tables.findObjects scope role name false).length ≤ 1 := by
  rw [findObjects_eq]
  split
  · exact Nat.zero_le 1
  · exact Option.length_toList_le

theorem of_mem_findObjects_plain (member : found ∈ tables.findObjects scope role name false) :
    tables.objects.get? found.1 = some found.2 ∧ IsNamed found.1 (withoutCall name) := by
  rw [findObjects_eq] at member
  split at member
  · cases member
  · exact of_findPlain_eq_some (Option.mem_toList.mp member)

theorem findObjects_narrow (admitted : typesForRole? role = some types) :
    tables.findObjects scope role name true =
      if withoutCall name = [] then [] else tables.findNarrow scope types (withoutCall name) := by
  rw [findObjects_eq, admitted]
  rfl

theorem findObjects_narrow_untyped (noTypes : typesForRole? role = none) :
    tables.findObjects scope role name true = [] := by
  rw [findObjects_eq, noTypes]
  exact ite_self _

theorem of_mem_findObjects_narrow (distinct : tables.objects.keys.Nodup)
    (admitted : typesForRole? role = some types)
    (member : found ∈ tables.findObjects scope role name true) :
    tables.objects.get? found.1 = some found.2 ∧ IsNamed found.1 (withoutCall name) ∧
      found.2.type ∈ types := by
  rw [findObjects_narrow admitted] at member
  split at member
  · cases member
  · exact of_mem_findNarrow distinct member

theorem of_mem_findObjects (distinct : tables.objects.keys.Nodup) {narrow : Bool}
    (member : found ∈ tables.findObjects scope role name narrow) :
    tables.objects.get? found.1 = some found.2 ∧ IsNamed found.1 (withoutCall name) := by
  cases narrow with
  | false => exact of_mem_findObjects_plain member
  | true =>
    cases admitted : typesForRole? role with
    | none => simp [findObjects_narrow_untyped admitted] at member
    | some types =>
      obtain ⟨entered, named, _⟩ := of_mem_findObjects_narrow distinct admitted member
      exact ⟨entered, named⟩

end ReferenceTables

open ReferenceTables in
/-- A lookup leaves out the parentheses of a call and finds nothing but entries that have the
name.  A plain lookup finds at most one.  A narrow lookup for a role that admits types finds
entries of these types, and it finds some whenever one of them has the name. -/
theorem lookups_find_what_is_named (tables : ReferenceTables)
    (distinct : tables.objects.keys.Nodup) (scope : NameScope) (role name : Text) :
    let called := withoutCall name
    (name = called ++ "()" ∨ called = name ∧ ¬"()".toList <:+ name) ∧
    (∀ narrow, ∀ found ∈ tables.findObjects scope role name narrow,
      tables.objects.get? found.1 = some found.2 ∧
      (found.1 = called ∨ '.' :: called <:+ found.1)) ∧
    (tables.findObjects scope role name false).length ≤ 1 ∧
    ∀ types, typesForRole? role = some types →
      (∀ found ∈ tables.findObjects scope role name true, found.2.type ∈ types) ∧
      (tables.findObjects scope role name true = [] ↔
        called = [] ∨ ∀ full entry, tables.objects.get? full = some entry → entry.type ∈ types →
          ¬(full = called ∨ '.' :: called <:+ full)) := by
  intro called
  refine ⟨withoutCall_cases name, ?_, length_findObjects_plain tables scope role name, ?_⟩
  · exact fun narrow found => of_mem_findObjects distinct
  · intro types admitted
    constructor
    · intro found member
      exact (of_mem_findObjects_narrow distinct admitted member).2.2
    · rw [findObjects_narrow admitted]
      by_cases empty : called = []
      · simp [called, empty]
      · rw [if_neg empty, findNarrow_eq_nil_iff distinct, or_iff_right empty]
        rfl

def areas : ReferenceTables where
  objects := ⟨[("shapes.Disk", ⟨"disk", "class"⟩), ("shapes.Disk.area", ⟨"disk", "method"⟩),
    ("flat.area", ⟨"flat", "function"⟩), ("shapes.Square.area", ⟨"square", "method"⟩)]⟩

theorem lookups_find_what_is_named_areas :
    areas.objects.keys.Nodup ∧
    typesForRole? "meth" = some ["method".toList, "classmethod", "staticmethod"] ∧
    areas.findObjects { module := some "shapes" } "meth" "area()" true =
      [("shapes.Disk.area".toList, ⟨"disk", "method"⟩),
        ("shapes.Square.area".toList, ⟨"square", "method"⟩)] ∧
    (∀ found ∈ areas.findObjects { module := some "shapes" } "meth" "area()" true,
      found.2.type ∈ ["method".toList, "classmethod", "staticmethod"]) ∧
    (areas.findObjects { module := some "shapes" } "meth" "area()" false).length ≤ 1 := by
  have distinct : areas.objects.keys.Nodup := by decide
  have types : typesForRole? "meth" = some ["method".toList, "classmethod", "staticmethod"] := by
    decide
  have found :=
    lookups_find_what_is_named areas distinct { module := some "shapes" } "meth" "area()"
  exact ⟨distinct, types, by decide, (found.2.2.2 _ types).1, found.2.2.1⟩

end MatlabDocs
