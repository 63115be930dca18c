import MatlabDocs.Proofs.Catalog.BaseOrigins

/-!
# What the name of a base class denotes

A loaded folder is asked for a base class by its name, and then by what is left of the name when
all characters of the folder's name are taken off its front.  Where the name starts with the
folder's name and a dot, this leaves the path of the base class in the folder.  But letters may
be taken off any other name as well, and then what is found is something else that the rest of
the name leads to.
-/

namespace MatlabDocs

open List

/-- What follows a slash is only put behind the rest of the path. -/
theorem Path.exists_join_eq (root front : Text) :
    ∃ ahead, ∀ rest, join root (front ++ '/' :: rest) = ahead ++ '/' :: rest := by
  by_cases empty : front = []
  · exact ⟨[], fun rest => by rw [empty]; rfl⟩
  · exact ⟨join root front, fun rest => join_append empty root ('/' :: rest)⟩

namespace Catalog

variable (catalog : Catalog)

/-- Two dotted names stand for the same place, as folders and as files. -/
def SamePlace (name other : Text) : Prop :=
  ∀ ending, catalog.tree.place? (Path.join catalog.root (Path.ofDotted name) ++ ending) =
    catalog.tree.place? (Path.join catalog.root (Path.ofDotted other) ++ ending)

/-- The entity is what a name for the same place leads to. -/
def LiesAt (name : Text) (entity : Entity) : Prop :=
  ∃ other, catalog.SamePlace other name ∧ catalog.Stands other entity

/-- The name of a folder without package signs. -/
def plainName (folderName : Text) : Text :=
  folderName.dropWhile (· == '+')

/-- What the name of a base class denotes in a folder: the member with this name, or what lies at
the path behind the name of the folder and a dot. -/
def Denotes (package folderName base : Text) (entity : Entity) : Prop :=
  catalog.Stands (package ++ "." ++ base) entity ∨
    ∃ path, base = plainName folderName ++ "." ++ path ∧
      catalog.LiesAt (package ++ "." ++ path) entity

variable {catalog : Catalog} {package folderName base key : Text} {entity : Entity}

/-- A second dot does not lead to another place. -/
theorem samePlace_doubled (catalog : Catalog) (package path : Text) :
    catalog.SamePlace (package ++ "." ++ '.' :: path) (package ++ "." ++ path) := by
  intro ending
  obtain ⟨ahead, joined⟩ := Path.exists_join_eq catalog.root (Path.ofDotted package)
  have doubled : Path.ofDotted ('.' :: path) = '/' :: Path.ofDotted path := rfl
  rw [Path.ofDotted_append, Path.ofDotted_append, joined, joined, doubled, append_assoc,
    append_assoc]
  exact Path.place?_doubled _ ahead (Path.ofDotted path ++ ending)

theorem IsKey.eq_of_head? (isKey : IsKey folderName base key)
    (apart : ∀ c ∈ base.head?, c ∉ plainName folderName) : key = base := by
  rcases isKey with rfl | rfl
  · rfl
  · cases base with
    | nil => rfl
    | cons c base =>
      apply dropWhile_cons_of_neg
      rw [contains_iff_mem]
      exact apart c rfl

/-- Behind the name of a folder, the path is left with its dot. -/
theorem IsKey.of_path {path : Text} (isKey : IsKey folderName base key)
    (plain : '.' ∉ plainName folderName) (whole : base = plainName folderName ++ "." ++ path) :
    key = base ∨ key = '.' :: path := by
  apply isKey.imp_right
  rintro rfl
  rw [whole, append_assoc]
  apply dropWhile_append_cons (fun c member => contains_iff_mem.mpr member)
  rw [Bool.eq_false_iff, ne_eq, contains_iff_mem]
  exact plain

/-- The name is not cut in a wrong place: it starts with none of the characters of the folder's
name, or with the whole name and a dot. -/
def CutsRight (folderName base : Text) : Prop :=
  (∀ c ∈ base.head?, c ∉ plainName folderName) ∨
    ('.' ∉ plainName folderName ∧ plainName folderName ++ ['.'] <+: base)

private theorem denotes_of_cutsRight (cutsRight : CutsRight folderName base)
    (isKey : IsKey folderName base key) (stands : catalog.Stands (package ++ "." ++ key) entity) :
    catalog.Denotes package folderName base entity := by
  rcases cutsRight with apart | ⟨plain, path, whole⟩
  · rw [isKey.eq_of_head? apart] at stands
    exact .inl stands
  · rcases isKey.of_path plain whole.symm with rfl | rfl
    · exact .inl stands
    · exact .inr ⟨path, whole.symm, _, samePlace_doubled catalog package path, stands⟩

/-- A base class that is found is read from a file with its name, or a loaded folder among the
searched ones knows it.  What the folder knows stands behind its dotted name, under the name of
the base class or under what is left of it without characters of the folder's name in front.  It
is what the name of the base class denotes if the name is not cut in a wrong place. -/
theorem base_stands_under_rest_of_name (tree : SourceTree) (root : Text) (encoding : Option Text)
    (forPages : Bool) (earlier : List Lookup) (definition : ClassDef)
    (found : List (Text × Value)) (next : Catalog)
    (searched : basesOf definition (({ tree, root, encoding, forPages } : Catalog).after earlier) =
      (.ok found, next)) :
    ∀ base entity, (base, .entity entity) ∈ found →
      next.FromFile base (.entity entity) ∨
      ∃ visit ∈ tree.walk root, ∃ folderName ∈ visit.folders,
        let package := packageIn (moduleAt root visit.path) folderName
        (next.modules.get? package).isSome ∧
        (∃ key, IsKey folderName base key ∧ next.Stands (package ++ "." ++ key) entity) ∧
        (CutsRight folderName base → next.Denotes package folderName base entity) := by
  intro base entity member
  have coherent := coherent_after tree root encoding forPages earlier
  obtain ⟨table, rfl, searchedFrom⟩ := basesOf_of_ok coherent searched
  obtain ⟨sameTree, sameRoot, _, _⟩ :=
    Reaches.settings_eq ((reaches_after _ earlier).trans searchedFrom.reaches)
  have isFound := Table.get?_of_mem searchedFrom.search.nodup member
  rcases searchedFrom.search.origin base _ isFound rfl with inModule | inFile
  · obtain ⟨visit, isVisit, folderName, isFolder, knows⟩ := inModule
    obtain ⟨key, isKey, stands⟩ := knows.stands
    have isStanding := stands entity rfl
    rw [sameTree, sameRoot] at isVisit
    rw [sameRoot] at knows isStanding
    refine .inr ⟨visit, isVisit, folderName, isFolder, knows.loaded, ⟨key, isKey, isStanding⟩, ?_⟩
    intro cutsRight
    exact denotes_of_cutsRight cutsRight isKey isStanding
  · exact .inl inFile

/-- A class in a folder. -/
def panelTree : SourceTree where
  folders := [["src"], ["src", "gui"]]
  files := ⟨[(["src", "gui", "Panel.m"], .source "classdef Panel\nend\n".toUTF8.toList)]⟩

def panelCatalog : Catalog :=
  ({ tree := panelTree, root := "src" } : Catalog).after [.load "gui"]

def classOver (base : Text) : ClassDef where
  name := "Form"
  module := "forms"
  tokens := []
  bases := [base]

/-- The only base class that was found, with the name of the class that it is. -/
def onlyBase? : Except Fault (List (Text × Value)) × Catalog → Option (Text × Nat × Option Text)
  | (.ok [(base, .entity (.definition number))], next) =>
    some (base, number, (next.class? number).map ClassDef.name)
  | _ => none

theorem eq_of_onlyBase? {run : Except Fault (List (Text × Value)) × Catalog} {number : Nat}
    {name? : Option Text} (only : onlyBase? run = some (base, number, name?)) :
    run = (.ok [(base, .entity (.definition number))], run.2) ∧
      (run.2.class? number).map ClassDef.name = name? := by
  unfold onlyBase? at only
  split at only
  · cases only
    exact ⟨rfl, rfl⟩
  · cases only

theorem onlyBase?_panelCatalog : ∀ base ∈ ["gui.Panel".toList, "uiPanel".toList],
    onlyBase? (basesOf (classOver base) panelCatalog) = some (base, 0, some "Panel".toList) := by
  decide +kernel

theorem base_stands_under_rest_of_name_panel :
    ∃ next, basesOf (classOver "gui.Panel") panelCatalog =
        (.ok [("gui.Panel", .entity (.definition 0))], next) ∧
      next.Denotes "gui" "gui" "gui.Panel" (.definition 0) := by
  obtain ⟨searched, -⟩ := eq_of_onlyBase? (onlyBase?_panelCatalog "gui.Panel" mem_cons_self)
  refine ⟨_, searched, ?_⟩
  have noFile : ∀ visit ∈ panelTree.walk "src", baseFile? panelTree visit "gui.Panel" = none := by
    decide +kernel
  have onlyFolder : ∀ visit ∈ panelTree.walk "src", ∀ name ∈ visit.folders,
      visit.path = "src".toList ∧ name = "gui".toList := by
    decide +kernel
  obtain ⟨sameTree, sameRoot, _, _⟩ := Reaches.settings_eq (basesOf_moves.reaches searched)
  rcases base_stands_under_rest_of_name panelTree "src" none false [.load "gui"]
    (classOver "gui.Panel") _ _ searched _ _ mem_cons_self with inFile | inModule
  · cases inFile with
    | intro isVisit isFile _ _ =>
      rw [sameTree, sameRoot] at isVisit
      rw [sameTree] at isFile
      cases (noFile _ isVisit).symm.trans isFile
  · obtain ⟨visit, isVisit, name, isFolder, _, _, denotes⟩ := inModule
    obtain ⟨isRoot, rfl⟩ := onlyFolder visit isVisit name isFolder
    rw [isRoot] at denotes
    exact denotes (.inr (by decide))

/-- The letters of a folder's name are taken off the name of another class, and a class in the
folder is found instead. -/
theorem base_found_without_letters :
    ∃ next, basesOf (classOver "uiPanel") panelCatalog =
        (.ok [("uiPanel", .entity (.definition 0))], next) ∧
      (next.class? 0).map ClassDef.name = some "Panel".toList ∧
      ¬next.Denotes "gui" "gui" "uiPanel" (.definition 0) := by
  obtain ⟨searched, named⟩ :=
    eq_of_onlyBase? (onlyBase?_panelCatalog "uiPanel" (mem_cons_of_mem _ mem_cons_self))
  refine ⟨_, searched, named, ?_⟩
  have nothing : (basesOf (classOver "uiPanel") panelCatalog).2.target "gui.uiPanel" = .nothing :=
    (Reaches.target_eq (basesOf_moves.reaches searched) _).trans rfl
  rintro (stands | ⟨path, whole, _⟩)
  · cases stands with
    | definition leads => cases nothing.symm.trans leads
  · cases whole

end Catalog

end MatlabDocs
