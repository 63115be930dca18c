import Mathlib.Data.List.DropRight
import MatlabDocs.Proofs.Text.Pieces
import MatlabDocs.Reference.Description

/-!
# Names without package signs

The package signs of a dotted name are taken off part by part.  So it does not matter whether
they are taken off the whole name or off the pieces that it is joined from, and outside of a
class the signatures that are shown without signs are those that are shown with them, with the
signs taken off.
-/

namespace MatlabDocs

open List Option Text

theorem dropWhile_eq_self_iff_head? (c : Char) (text : Text) :
    text.dropWhile (· == c) = text ↔ text.head? ≠ some c := by
  rw [dropWhile_eq_self_iff]
  cases text <;> simp

theorem withoutPackageSigns_nil : withoutPackageSigns [] = [] := rfl

/-- A dot parts a name into two that lose their signs on their own. -/
theorem withoutPackageSigns_dotted (front rest : Text) :
    withoutPackageSigns (front ++ '.' :: rest) =
      withoutPackageSigns front ++ '.' :: withoutPackageSigns rest := by
  obtain ⟨first, before, left⟩ := exists_splitOn_eq_cons '.' front
  obtain ⟨next, after, right⟩ := exists_splitOn_eq_cons '.' rest
  rw [withoutPackageSigns, splitOn_append_separator, left, right, map_append,
    map_cons, map_cons, joinWith_append, withoutPackageSigns, left, map_cons,
    withoutPackageSigns, right, map_cons]
  simp

theorem withoutPackageSigns_joinWith (names : List Text) :
    withoutPackageSigns (Text.joinWith "." names) =
      Text.joinWith "." (names.map withoutPackageSigns) := by
  cases names with
  | nil => rfl
  | cons first names =>
    induction names generalizing first with
    | nil => rw [joinWith_singleton, map_singleton, joinWith_singleton]
    | cons next names ih =>
      have dot : (("." : String) : Text) = ['.'] := rfl
      rw [joinWith_cons_cons, append_assoc, dot, singleton_append,
        withoutPackageSigns_dotted, ← dot, ih, map_cons, map_cons,
        map_cons, joinWith_cons_cons]
      simp

theorem splitOn_withoutPackageSigns (name : Text) :
    (withoutPackageSigns name).splitOn '.' =
      (name.splitOn '.').map fun part => part.dropWhile (· == '+') := by
  obtain ⟨first, others, split⟩ := exists_splitOn_eq_cons '.' name
  have plain : ∀ part ∈ (first :: others).map fun part => part.dropWhile (· == '+'),
      '.' ∉ part := by
    intro part member inPart
    obtain ⟨whole, isPart, rfl⟩ := mem_map.mp member
    rw [← split] at isPart
    exact not_mem_of_mem_splitOn whole isPart ((dropWhile_sublist _).mem inPart)
  rw [withoutPackageSigns, split]
  exact splitOn_joinWith plain

theorem withoutPackageSigns_withoutPackageSigns (name : Text) :
    withoutPackageSigns (withoutPackageSigns name) = withoutPackageSigns name := by
  rw [withoutPackageSigns, splitOn_withoutPackageSigns, List.map_map, withoutPackageSigns]
  apply congrArg
  apply map_congr_left
  intro part _
  exact dropWhile_idempotent _ part

theorem SignatureParts.exists_dot_of_splitPath {dotted path : Text}
    (found : (splitPath dotted).1 = some path) : ∃ front, path = front ++ ['.'] := by
  rw [splitPath] at found
  dsimp only at found
  split at found
  · cases found
  · rename_i notEmpty
    obtain rfl := some.inj found
    have isLast : (trimRight (· != '.') dotted).getLast notEmpty = '.' := by
      have kept := getLast?_trimRight (· != '.') dotted _
        (mem_def.mpr (getLast?_eq_getLast_of_ne_nil notEmpty))
      simpa using kept
    have whole := dropLast_append_getLast notEmpty
    rw [isLast] at whole
    exact ⟨_, whole.symm⟩

theorem SignatureParts.exists_dot_of_ofDescription? {text : Text} {parts : SignatureParts}
    (accepted : ofDescription? text = some parts) :
    ∀ path ∈ parts.path, ∃ front, path = front ++ ['.'] := by
  rw [ofDescription?, read?] at accepted
  dsimp only at accepted
  split at accepted
  · obtain ⟨_, _, rfl⟩ := map_eq_some_iff.mp accepted
    intro path isPath
    exact exists_dot_of_splitPath isPath
  · cases accepted

namespace DisplaySettings

def showSigns (settings : DisplaySettings) : DisplaySettings :=
  { settings with keepPackageSigns := true }

def hideSigns (settings : DisplaySettings) : DisplaySettings :=
  { settings with keepPackageSigns := false }

variable (settings : DisplaySettings)

@[simp] theorem shown_showSigns : settings.showSigns.shown = id := rfl

@[simp] theorem shown_hideSigns : settings.hideSigns.shown = withoutPackageSigns := rfl

end DisplaySettings

namespace SignaturePart

/-- A part of what is shown, without the package signs of the names in it. -/
def withoutPackageSigns : SignaturePart → SignaturePart
  | .label text => .label text
  | .qualifier text => .qualifier (MatlabDocs.withoutPackageSigns text)
  | .name text => .name (MatlabDocs.withoutPackageSigns text)
  | .parameters list => .parameters list
  | .returns text => .returns text

variable (sort : DescriptionSort) (type : Text) (note : Option Text) (parts : SignatureParts)

/-- What is shown in front of all names. -/
def leading : List SignaturePart :=
  (if sort.isDecorator then [.qualifier "@"] else []) ++
    if sort.label type = [] then [] else [.label (sort.label type)]

/-- What is shown behind the name. -/
def trailing : List SignaturePart :=
  (match parts.arguments with
    | some (c :: rest) => [.parameters (Parameter.parseList (c :: rest))]
    | _ => if sort.needsParentheses type then [.parameters []] else []) ++
  (match parts.returned with
    | some (c :: rest) => [.returns (c :: rest)]
    | _ => []) ++
  match note with
    | some (c :: rest) => [.label (" " ++ (c :: rest))]
    | _ => []

theorem leading_withoutPackageSigns :
    (leading sort type).map withoutPackageSigns = leading sort type := by
  have decoration : MatlabDocs.withoutPackageSigns ['@'] = ['@'] := rfl
  rw [leading]
  split <;> split <;> simp [withoutPackageSigns, decoration]

theorem trailing_withoutPackageSigns :
    (trailing sort type note parts).map withoutPackageSigns = trailing sort type note parts := by
  unfold trailing
  rw [map_append, map_append]
  refine congrArg₂ _ (congrArg₂ _ ?_ ?_) ?_
  · split
    · rfl
    · split <;> rfl
  · split <;> rfl
  · split <;> rfl

end SignaturePart

/-- The parts of a signature that was accepted decide all that is read of it. -/
theorem readSignature?_of_accepted {text : Text} {parts : SignatureParts}
    (accepted : SignatureParts.ofDescription? text = some parts) (sort : DescriptionSort)
    (settings : DisplaySettings) (type : Text) (scopeClass : Option Text)
    (options : DescriptionOptions) :
    let scope := scopeClass.filter (· ≠ [])
    let qualified := qualify scope (parts.path.map settings.shown) (settings.shown parts.name)
    readSignature? sort settings type scopeClass options text =
      some
        { module := options.module.map settings.shown
          className := qualified.2.1
          fullName := qualified.1
          path := qualified.2.2
          parts := SignaturePart.leading sort type ++
            (shownQualifier settings scope qualified.2.2 options.module).toList.map .qualifier ++
            .name (settings.shown parts.name) ::
              SignaturePart.trailing sort type options.note parts } := by
  intro scope qualified
  rw [readSignature?, accepted]
  dsimp only [bind_eq_bind, bind_some]
  apply congrArg some
  rw [ReadSignature.mk.injEq]
  refine ⟨rfl, rfl, rfl, rfl, ?_⟩
  have regrouped : ∀ (front arguments returned note : List SignaturePart) (name : SignaturePart),
      front ++ [name] ++ arguments ++ returned ++ note =
        front ++ name :: (arguments ++ returned ++ note) := by
    intro front arguments returned note name
    simp
  cases shownQualifier settings scope qualified.2.2 options.module with
  | none => exact regrouped _ _ _ _ _
  | some shown => exact regrouped _ _ _ _ _

section

variable {path : Option Text} (dotted : ∀ text ∈ path, ∃ front, text = front ++ ['.'])
include dotted

theorem fullName_withoutPackageSigns (name : Text) :
    (qualify none (path.map withoutPackageSigns) (withoutPackageSigns name)).1 =
      withoutPackageSigns (qualify none path name).1 := by
  cases path with
  | none => rfl
  | some text =>
    obtain ⟨front, rfl⟩ := dotted text rfl
    have whole := withoutPackageSigns_dotted front name
    rw [map_some, qualify, qualify]
    dsimp only
    rw [append_assoc, singleton_append, whole, withoutPackageSigns_dotted,
      withoutPackageSigns_nil, append_assoc, singleton_append]

theorem shownQualifier_withoutPackageSigns (settings : DisplaySettings) (module : Option Text) :
    shownQualifier settings.hideSigns none (path.map withoutPackageSigns) module =
      (shownQualifier settings.showSigns none path module).map withoutPackageSigns := by
  cases path with
  | none =>
    cases module with
    | none => rfl
    | some name =>
      cases name with
      | nil => rfl
      | cons c name =>
        have behind := withoutPackageSigns_dotted (c :: name) []
        by_cases named : settings.addModuleNames && (c :: name) != "exceptions"
        · have shown : shownQualifier settings.showSigns none none (some (c :: name)) =
              some (c :: name ++ ['.']) := if_pos named
          have hidden : shownQualifier settings.hideSigns none none (some (c :: name)) =
              some (withoutPackageSigns (c :: name) ++ ['.']) := if_pos named
          rw [map_none, shown, hidden, map_some, behind,
            withoutPackageSigns_nil]
        · have shown : shownQualifier settings.showSigns none none (some (c :: name)) =
              none := if_neg named
          have hidden : shownQualifier settings.hideSigns none none (some (c :: name)) =
              none := if_neg named
          rw [map_none, shown, hidden, map_none]
  | some text =>
    obtain ⟨front, rfl⟩ := dotted text rfl
    obtain ⟨c, kept, shape⟩ := exists_cons_of_ne_nil
      (append_ne_nil_of_right_ne_nil front (cons_ne_nil '.' []))
    obtain ⟨first, stripped, shapeStripped⟩ := exists_cons_of_ne_nil
      (append_ne_nil_of_right_ne_nil (withoutPackageSigns front)
        (cons_ne_nil '.' (withoutPackageSigns [])))
    have split := withoutPackageSigns_dotted front []
    rw [shapeStripped, shape] at split
    rw [shape, map_some, split, shownQualifier, shownQualifier, map_some, split]

end

private theorem qualify_path_outside (path : Option Text) (name : Text) :
    (qualify none path name).2.2 = path := by
  cases path <;> rfl

/-- Outside of a class the signs may be taken off a signature before or after it is shown: the
full name, the path, the module and the names that are shown lose their signs, and nothing else
changes.  The signs can be taken off piece by piece and only once. -/
theorem display_without_package_signs (sort : DescriptionSort) (settings : DisplaySettings)
    (type : Text) (options : DescriptionOptions) (text : Text) (parts : SignatureParts)
    (accepted : SignatureParts.ofDescription? text = some parts) :
    (∃ kept hidden : ReadSignature,
      readSignature? sort settings.showSigns type none options text = some kept ∧
      readSignature? sort settings.hideSigns type none options text = some hidden ∧
      hidden.fullName = withoutPackageSigns kept.fullName ∧
      hidden.path = kept.path.map withoutPackageSigns ∧
      hidden.module = kept.module.map withoutPackageSigns ∧
      hidden.parts = kept.parts.map SignaturePart.withoutPackageSigns) ∧
    (∀ name, withoutPackageSigns (withoutPackageSigns name) = withoutPackageSigns name) ∧
    ∀ names, withoutPackageSigns (Text.joinWith "." names) =
      Text.joinWith "." (names.map withoutPackageSigns) := by
  refine ⟨?_, withoutPackageSigns_withoutPackageSigns, withoutPackageSigns_joinWith⟩
  have dotted := SignatureParts.exists_dot_of_ofDescription? accepted
  refine ⟨_, _, readSignature?_of_accepted accepted sort settings.showSigns type none options,
    readSignature?_of_accepted accepted sort settings.hideSigns type none options, ?_, ?_, ?_, ?_⟩
  · simpa using fullName_withoutPackageSigns dotted parts.name
  · simp [qualify_path_outside]
  · simp
  · have qualifier : ∀ shown : Option Text,
        (shown.toList.map .qualifier).map SignaturePart.withoutPackageSigns =
          (shown.map withoutPackageSigns).toList.map .qualifier := by
      intro shown
      cases shown <;> rfl
    simp [SignaturePart.leading_withoutPackageSigns, SignaturePart.trailing_withoutPackageSigns,
      qualifier, qualify_path_outside, DisplaySettings.shown_hideSigns,
      DisplaySettings.shown_showSigns, id, shownQualifier_withoutPackageSigns dotted,
      SignaturePart.withoutPackageSigns]

/-- A method of a class in a package within a package, with signs in places of all sorts. -/
def packagedSignature : SignatureParts where
  path := some "+geo.+shape.@Disk."
  name := "+area"
  arguments := some "+unit, [scale]"
  returned := some "+value"

theorem display_without_package_signs_packaged :
    SignatureParts.ofDescription? "+geo.+shape.@Disk.+area(+unit, [scale]) -> +value" =
      some packagedSignature ∧
    ∃ kept hidden : ReadSignature,
      readSignature? .classMember (DisplaySettings.showSigns {}) "method" none
        ⟨some "+lib", some "+note"⟩ "+geo.+shape.@Disk.+area(+unit, [scale]) -> +value" =
          some kept ∧
      readSignature? .classMember (DisplaySettings.hideSigns {}) "method" none
        ⟨some "+lib", some "+note"⟩ "+geo.+shape.@Disk.+area(+unit, [scale]) -> +value" =
          some hidden ∧
      hidden.parts = kept.parts.map SignaturePart.withoutPackageSigns :=
  have accepted : SignatureParts.ofDescription?
      "+geo.+shape.@Disk.+area(+unit, [scale]) -> +value" = some packagedSignature := by
    decide +kernel
  have shown := display_without_package_signs .classMember {} "method"
    ⟨some "+lib", some "+note"⟩ _ packagedSignature accepted
  ⟨accepted, shown.1.imp fun _ both => both.imp fun _ facts =>
    ⟨facts.1, facts.2.1, facts.2.2.2.2.2⟩⟩

end MatlabDocs
