import Mathlib.Data.List.Forall2
import MatlabDocs.Proofs.Catalog.Agreement
import MatlabDocs.Proofs.Catalog.BaseOrigins

/-!
# Links to base classes

The search for the base classes of a class asks the folders that are loaded, and takes a file
where no loaded folder knows the class.  So the links depend on which of the searched folders
are loaded, and on nothing else of what was looked up before.  A base class that a loaded folder
knows is linked by the dotted name of the folder below the root, and one that is taken from a
file by the path of the file with the root in it.
-/

namespace MatlabDocs.Catalog

open List Table MatlabDocs.Path

/-- The dotted names under which the search for base classes asks for loaded folders. -/
def searchedPackages (tree : SourceTree) (root : Text) : List Text :=
  (tree.walk root).flatMap fun visit => visit.folders.map (packageIn (moduleAt root visit.path))

section

variable {packages : List Text} {first second : Catalog}

def AlikeTables (first second : Catalog) (found others : NameTable Value) : Prop :=
  Forall₂ (fun entry twin => entry.1 = twin.1 ∧ Alike first second entry.2 twin.2)
    found.entries others.entries

namespace AlikeTables

variable {found others : NameTable Value} (alike : AlikeTables first second found others)
include alike

theorem of_reaches {firstAfter secondAfter : Catalog}
    (firstReaches : first.Reaches firstAfter) (secondReaches : second.Reaches secondAfter) :
    AlikeTables firstAfter secondAfter found others :=
  alike.imp fun _ _ same => ⟨same.1, same.2.of_grows firstReaches.grows secondReaches.grows⟩

theorem get? (name : Text) :
    Option.Rel (Alike first second) (found.get? name) (others.get? name) := by
  obtain ⟨entries⟩ := found
  obtain ⟨twins⟩ := others
  change Forall₂ _ entries twins at alike
  unfold get?
  induction alike with
  | nil => exact .none
  | @cons entry twin entries twins same _ ih =>
    rw [lookup_cons_eq, lookup_cons_eq, same.1]
    split
    · exact .some same.2
    · exact ih

theorem isPresent_getD (base : Text) :
    ((others.get? base).getD .nothing).isPresent = ((found.get? base).getD .nothing).isPresent := by
  have related := alike.get? base
  generalize found.get? base = value?, others.get? base = other? at related
  cases related with
  | some same => exact same.isPresent_eq
  | none => rfl

theorem insert {value other : Value} (name : Text) (same : Alike first second value other) :
    AlikeTables first second (found.insert name value) (others.insert name other) := by
  obtain ⟨entries⟩ := found
  obtain ⟨twins⟩ := others
  change Forall₂ _ entries twins at alike
  show Forall₂ _ (insertEntry name value entries) (insertEntry name other twins)
  induction alike with
  | nil => exact .cons ⟨rfl, same⟩ .nil
  | @cons entry twin entries twins sameEntry alike ih =>
    rw [insertEntry, insertEntry, sameEntry.1]
    split
    · exact .cons ⟨rfl, same⟩ alike
    · exact .cons sameEntry ih

end AlikeTables

section

variable (agree : Agree packages first second)
include agree

private theorem baseInFolder_matches {number other : Nat}
    {folder twin : Folder} (twins : Twins first second number other folder twin)
    (folderName base : Text) :
    Matches packages Alike first second (baseInFolder number folderName base first)
      (baseInFolder other folderName base second) := by
  apply (askFolder_matches agree twins base).bind
  intro value otherValue firstAfter secondAfter firstReaches secondReaches agree alike
  rw [alike.isPresent_eq]
  split
  · exact .of_pure agree alike
  · obtain ⟨folder, twin, twins⟩ := twins.of_reaches firstReaches secondReaches
    exact askFolder_matches agree twins _

theorem baseInFolders_matches (rootModule base : Text)
    {names : List Text} (searched : ∀ name ∈ names, packageIn rootModule name ∈ packages) :
    Matches packages (fun first second => Option.Rel (Alike first second)) first second
      (baseInFolders rootModule base names first) (baseInFolders rootModule base names second) := by
  induction names generalizing first second with
  | nil => exact .of_pure agree .none
  | cons name names ih =>
    obtain ⟨isSearched, others⟩ := forall_mem_cons.mp searched
    have sameLoaded := agree.loaded _ isSearched
    cases known : first.modules.get? (packageIn rootModule name) with
    | none =>
      cases otherKnown : second.modules.get? (packageIn rootModule name) with
      | none =>
        rw [baseInFolders_of_absent known, baseInFolders_of_absent otherKnown]
        exact ih agree others
      | some other =>
        rw [known, otherKnown] at sameLoaded
        cases sameLoaded
    | some number =>
      cases otherKnown : second.modules.get? (packageIn rootModule name) with
      | none =>
        rw [known, otherKnown] at sameLoaded
        cases sameLoaded
      | some other =>
        obtain ⟨folder, isFolder, named⟩ := agree.firstCoherent.registered _ number known
        obtain ⟨twin, isTwin, twinNamed⟩ := agree.secondCoherent.registered _ other otherKnown
        rw [baseInFolders_of_loaded known, baseInFolders_of_loaded otherKnown]
        apply (baseInFolder_matches agree
          ⟨isFolder, isTwin, twinNamed.trans named.symm⟩ name base).bind
        intro value otherValue firstAfter secondAfter _ _ agree alike
        rw [alike.isPresent_eq]
        split
        · exact .of_pure agree (.some alike)
        · exact ih agree others

private theorem enter_matches (reading : Reading Definition) :
    Matches packages (fun first second entity other =>
        Alike first second (.entity entity) (.entity other))
      first second (enter reading first) (enter reading second) := by
  cases result : reading.result with
  | error fault =>
    rw [enter_of_error result, enter_of_error result]
    exact .error
  | ok definition =>
    have firstReaches := enter_moves.reaches (@enter_of_ok first _ _ result)
    have secondReaches := enter_moves.reaches (@enter_of_ok second _ _ result)
    rw [enter_of_ok result, enter_of_ok result]
    refine .ok firstReaches secondReaches
      (agree.of_pure_loading firstReaches secondReaches rfl rfl) ?_
    exact .definition getElem?_concat_length getElem?_concat_length

variable {visit : SourceTree.Visit} {found others : NameTable Value}
  (alike : AlikeTables first second found others)
include alike

private theorem baseInFiles_matches (base : Text) :
    Matches packages AlikeTables first second (baseInFiles visit found base first)
      (baseInFiles visit others base second) := by
  rw [baseInFiles, baseInFiles, alike.isPresent_getD]
  split
  · exact .of_pure agree alike
  rw [Loads.get_bind, Loads.get_bind, agree.tree_eq]
  cases baseFile? first.tree visit base with
  | none => exact .of_pure agree alike
  | some file =>
    apply (enter_matches agree _).bind
    intro entity other firstAfter secondAfter firstReaches secondReaches agree same
    apply Matches.of_pure agree
    exact (alike.of_reaches firstReaches secondReaches).insert base same

theorem findBase_matches {rootModule : Text}
    (searched : ∀ name ∈ visit.folders, packageIn rootModule name ∈ packages) (base : Text) :
    Matches packages AlikeTables first second (findBase rootModule visit found base first)
      (findBase rootModule visit others base second) := by
  apply (baseInFolders_matches agree rootModule base searched).bind
  intro value? other? firstAfter secondAfter firstReaches secondReaches agree related
  have alike := alike.of_reaches firstReaches secondReaches
  cases related with
  | some same => exact .of_pure agree (alike.insert base same)
  | none => exact baseInFiles_matches agree alike base

end

private theorem alikeTables_start (bases : List Text) :
    AlikeTables first second (Table.ofList (bases.map (·, Value.nothing)))
      (Table.ofList (bases.map (·, Value.nothing))) := by
  apply forall₂_same.mpr
  intro entry member
  obtain ⟨base, _, rfl⟩ := mem_map.mp (mem_of_mem_ofList member)
  exact ⟨rfl, .same rfl⟩

theorem basesOf_matches (agree : Agree packages first second)
    (searched : searchedPackages first.tree first.root ⊆ packages) (definition : ClassDef) :
    Matches packages (fun first second found others => AlikeTables first second ⟨found⟩ ⟨others⟩)
      first second (basesOf definition first) (basesOf definition second) := by
  rw [basesOf_eq, basesOf_eq, agree.tree_eq, agree.root_eq]
  refine Matches.bind (Matches.foldlM agree (alikeTables_start definition.bases) ?_) ?_
  · intro visit isVisit found others firstAfter secondAfter _ _ agree alike
    apply Matches.foldlM agree alike
    intro base _ found others firstLast secondLast _ _ agree alike
    apply findBase_matches agree alike
    intro name member
    exact searched (mem_flatMap.mpr ⟨visit, isVisit, mem_map_of_mem member⟩)
  · intro found others firstAfter secondAfter _ _ agree alike
    exact .of_pure agree alike

private theorem linkModule_eq {value other : Value} (alike : Alike first second value other) :
    second.linkModule other = first.linkModule value := by
  cases alike with
  | definition known otherKnown => simp only [linkModule, moduleOf?, known, otherKnown]
  | @same value plain =>
    cases value with
    | entity entity => cases plain
    | _ => rfl
  | _ => rfl

private theorem mapM_baseLink_eq {found others : List (Text × Value)}
    (alike : AlikeTables first second ⟨found⟩ ⟨others⟩) :
    (others.mapM fun entry => second.baseLink entry.1 entry.2) =
      found.mapM fun entry => first.baseLink entry.1 entry.2 := by
  change Forall₂ _ found others at alike
  induction alike with
  | nil => rfl
  | cons same _ ih =>
    rw [mapM_cons, mapM_cons, ih, baseLink, baseLink, same.2.isPresent_eq,
      linkModule_eq same.2, same.1]

theorem baseLinks_matches (agree : Agree packages first second)
    (searched : searchedPackages first.tree first.root ⊆ packages) (definition : ClassDef) :
    Matches packages (fun _ _ links others => others = links) first second
      (baseLinks definition first) (baseLinks definition second) := by
  apply (basesOf_matches agree searched definition).bind
  intro found others firstAfter secondAfter _ _ agree alike
  rw [Loads.get_bind, Loads.get_bind, mapM_baseLink_eq alike]
  cases (found.mapM fun entry => firstAfter.baseLink entry.1 entry.2 :
      Except Fault (List Text)) with
  | error fault => exact .error
  | ok links => exact .of_pure agree rfl

def memberLinks (package name : Text) : Loads (Option (List Text)) := do
  match (← get).modules.get? package with
  | none => return none
  | some number =>
    match ← askFolder number name with
    | .entity (.definition index) =>
      match (← get).class? index with
      | none => return none
      | some definition => return some (← baseLinks definition)
    | _ => return none

variable {number : Nat}

theorem class?_eq {other : Nat} {definition : Definition}
    (known : first.definition? number = some definition)
    (otherKnown : second.definition? other = some definition) :
    second.class? other = first.class? number := by
  rw [class?, class?, known, otherKnown]

theorem memberLinks_matches (agree : Agree packages first second)
    (searched : searchedPackages first.tree first.root ⊆ packages) {package : Text} {other : Nat}
    (known : first.modules.get? package = some number)
    (otherKnown : second.modules.get? package = some other) (name : Text) :
    Matches packages (fun _ _ links others => others = links) first second
      (memberLinks package name first) (memberLinks package name second) := by
  obtain ⟨folder, isFolder, named⟩ := agree.firstCoherent.registered package number known
  obtain ⟨twin, isTwin, twinNamed⟩ := agree.secondCoherent.registered package other otherKnown
  rw [memberLinks, Loads.get_bind, known, Loads.get_bind, otherKnown]
  apply (askFolder_matches agree ⟨isFolder, isTwin, twinNamed.trans named.symm⟩ name).bind
  intro value otherValue firstAfter secondAfter firstReaches _ agree alike
  obtain ⟨tree, root, _, _⟩ := firstReaches.settings_eq
  cases alike with
  | @definition index otherIndex definition isKnown otherIsKnown =>
    dsimp only
    rw [Loads.get_bind, Loads.get_bind, class?_eq isKnown otherIsKnown]
    cases firstAfter.class? index with
    | none => exact .of_pure agree rfl
    | some definition =>
      apply (baseLinks_matches agree (by rw [tree, root]; exact searched) definition).bind
      intro links others firstLast secondLast _ _ agree same
      exact .of_pure agree (congrArg some same)
  | @same value plain =>
    cases value with
    | entity entity => cases plain
    | _ => exact .of_pure agree rfl
  | _ => exact .of_pure agree rfl

end

section

variable {catalog : Catalog} {base : Text} {index : Nat}

theorem baseLink_of_definition {definition : Definition}
    (known : catalog.definition? index = some definition) (base : Text) :
    catalog.baseLink base (.entity (.definition index)) = .ok (linkTo definition.module base) := by
  have module : catalog.moduleOf? (.definition index) = some definition.module := by
    rw [moduleOf?, known]
    cases definition <;> rfl
  rw [baseLink, linkModule, module]
  rfl

theorem baseLink_of_fromModule (origin : catalog.FromModule base (.entity (.definition index))) :
    ∃ visit ∈ catalog.tree.walk catalog.root, ∃ name ∈ visit.folders, ∃ key,
      IsKey name base key ∧
      (catalog.modules.get? (packageIn (moduleAt catalog.root visit.path) name)).isSome ∧
      catalog.baseLink base (.entity (.definition index)) =
        .ok (linkTo (homeOf (packageIn (moduleAt catalog.root visit.path) name ++ "." ++ key))
          base) := by
  obtain ⟨visit, isVisit, name, isFolder, knows⟩ := origin
  obtain ⟨key, isKey, stands⟩ := knows.stands
  refine ⟨visit, isVisit, name, isFolder, key, isKey, knows.loaded, ?_⟩
  cases stands _ rfl with
  | definition leads read known =>
    rw [baseLink_of_definition known, module_of_target leads read]

theorem baseLink_of_fromFile (origin : catalog.FromFile base (.entity (.definition index))) :
    ∃ visit ∈ catalog.tree.walk catalog.root, catalog.baseLink base (.entity (.definition index)) =
      .ok (linkTo (Definition.moduleOfPath visit.path) base) := by
  cases origin with
  | @intro visit _ _ _ isVisit _ read known =>
    refine ⟨visit, isVisit, ?_⟩
    rw [baseLink_of_definition known, Definition.module_ofBytes read]

private theorem moduleOfPath_ofDotted {package : Text} (noSlash : '/' ∉ package) :
    Definition.moduleOfPath (Path.ofDotted package) = package := by
  rw [Definition.moduleOfPath, ofDotted, map_map]
  conv_rhs => rw [← map_id package]
  apply map_congr_left
  intro c member
  have different : c ≠ '/' := fun same => noSlash (same ▸ member)
  by_cases dot : c = '.'
  · simp [dot]
  · simp [dot, different]

theorem homeOf_append {package key : Text} (notEmpty : package ≠ [])
    (noSlash : '/' ∉ package) (ending : package.getLast? ≠ some '.') (plain : '.' ∉ key)
    (noKeySlash : '/' ∉ key) : homeOf (package ++ "." ++ key) = package := by
  have front : Text.trimRight (· != '/') (ofDotted package ++ ['/']) =
      ofDotted package ++ ['/'] := Text.trimRight_of_getLast? (by simp)
  have folder : Text.trimRight (· == '/') (ofDotted package ++ ['/']) =
      ofDotted package := by
    rw [Text.trimRight_append (by simp)]
    apply Text.trimRight_of_getLast?
    intro last isLast
    rw [ofDotted, getLast?_map] at isLast
    obtain ⟨c, isC, rfl⟩ := Option.map_eq_some_iff.mp isLast
    have different : c ≠ '/' := fun same => noSlash (same ▸ mem_of_getLast? isC)
    have notDot : c ≠ '.' := fun same => ending (same ▸ isC)
    simpa [notDot] using different
  have relativeNotEmpty : ofDotted package ≠ [] := by simpa [ofDotted] using notEmpty
  rw [homeOf, ofDotted_append, ofDotted_of_not_mem plain,
    (split_append _ noKeySlash).2, split, front, folder, if_neg relativeNotEmpty,
    moduleOfPath_ofDotted noSlash]

end

theorem agree_after (tree : SourceTree) (root : Text) (encoding : Option Text) (forPages : Bool)
    (earlier others : List Lookup) {packages : List Text}
    (loaded : ∀ package ∈ packages,
      ((({ tree, root, encoding, forPages } : Catalog).after others).modules.get? package).isSome =
        ((({ tree, root, encoding, forPages } : Catalog).after earlier).modules.get?
          package).isSome) :
    Agree packages (({ tree, root, encoding, forPages } : Catalog).after earlier)
      (({ tree, root, encoding, forPages } : Catalog).after others) := by
  have coherent := coherent_fresh tree root encoding forPages
  have fresh : Agree packages ({ tree, root, encoding, forPages } : Catalog)
      { tree, root, encoding, forPages } :=
    ⟨rfl, rfl, rfl, rfl, coherent, coherent, fun _ _ => rfl⟩
  exact fresh.of_reaches (reaches_after _ earlier) (reaches_after _ others) loaded

/-- After any two lists of lookups that have loaded the same ones of the searched packages, the
links to the base classes of a member of a module that is loaded in both cases are the same.
A base class that is found as a definition is known to a loaded package, and then linked by the
name of its folder below the root, or no searched package that was loaded holds it, and then it is
linked by the path of a visited folder, which starts with the root. -/
theorem base_links_of_loaded_packages (tree : SourceTree) (root : Text) (encoding : Option Text)
    (forPages : Bool) (earlier others : List Lookup) :
    let fresh : Catalog := { tree, root, encoding, forPages }
    let first := fresh.after earlier
    let second := fresh.after others
    ((∀ package ∈ searchedPackages tree root,
        (second.modules.get? package).isSome = (first.modules.get? package).isSome) →
      ∀ package name number other, first.modules.get? package = some number →
        second.modules.get? package = some other →
        (memberLinks package name second).1 = (memberLinks package name first).1) ∧
    (∀ definition found next, basesOf definition first = (.ok found, next) →
      ∀ base index, (base, .entity (.definition index)) ∈ found →
        (∃ visit ∈ tree.walk root, ∃ name ∈ visit.folders, ∃ key, IsKey name base key ∧
          (next.modules.get? (packageIn (moduleAt root visit.path) name)).isSome ∧
          next.baseLink base (.entity (.definition index)) =
            .ok (linkTo (homeOf (packageIn (moduleAt root visit.path) name ++ "." ++ key)) base)) ∨
        ((∀ package ∈ searchedPackages tree root, ¬first.Holds package base) ∧
          ∃ visit ∈ tree.walk root,
            ((∀ place ∈ tree.folders, ∀ name ∈ place, Path.IsName name) → root <+: visit.path) ∧
            next.baseLink base (.entity (.definition index)) =
              .ok (linkTo (Definition.moduleOfPath visit.path) base))) ∧
    ∀ package key : Text, package ≠ [] → '/' ∉ package → package.getLast? ≠ some '.' →
      '.' ∉ key → '/' ∉ key → homeOf (package ++ "." ++ key) = package := by
  intro fresh first second
  have reached : fresh.Reaches first := reaches_after fresh earlier
  obtain ⟨tree_eq, root_eq, _, _⟩ := reached.settings_eq
  refine ⟨?_, ?_, ?_⟩
  · intro loaded package name number other known otherKnown
    have agree := agree_after tree root encoding forPages earlier others loaded
    have searched : searchedPackages first.tree first.root ⊆ searchedPackages tree root := by
      rw [tree_eq, root_eq]
      exact Subset.refl _
    exact (memberLinks_matches agree searched known otherKnown name).outcome_eq
  · intro definition found next searched base index member
    have coherent := coherent_after tree root encoding forPages earlier
    obtain ⟨table, rfl, searchedFrom⟩ := basesOf_of_ok coherent searched
    have reachedNext : fresh.Reaches next := reached.trans searchedFrom.reaches
    obtain ⟨nextTree, nextRoot, _, _⟩ := reachedNext.settings_eq
    have isFound := get?_of_mem searchedFrom.search.nodup member
    have isBase := searchedFrom.search.isBase base (mem_map_of_mem member)
    by_cases inModule : next.FromModule base (.entity (.definition index))
    · have linked := baseLink_of_fromModule inModule
      rw [nextTree, nextRoot] at linked
      exact .inl linked
    · right
      constructor
      · intro package isSearched holds
        obtain ⟨visit, isVisit, isPackage⟩ := mem_flatMap.mp isSearched
        obtain ⟨name, isFolder, named⟩ := mem_map.mp isPackage
        have isDone : base ∈ definition.bases ∧
            ∃ visit ∈ first.tree.walk first.root, Asks first.root visit package := by
          rw [tree_eq, root_eq]
          exact ⟨isBase, visit, isVisit, name, isFolder, named.symm⟩
        obtain ⟨value, isValue, _, known⟩ := searchedFrom.settled package base isDone holds
        cases isFound.symm.trans isValue
        exact inModule known
      · rcases searchedFrom.search.origin base _ isFound rfl with known | inFile
        · exact absurd known inModule
        · obtain ⟨visit, isVisit, linked⟩ := baseLink_of_fromFile inFile
          rw [nextTree, nextRoot] at isVisit
          exact ⟨visit, isVisit, fun names => SourceTree.prefix_walk names isVisit, linked⟩
  · intro package key notEmpty noSlash ending plain noKeySlash
    exact homeOf_append notEmpty noSlash ending plain noKeySlash

def shapeTree : SourceTree where
  folders := [["src"], ["src", "disks"], ["src", "disks", "shapes"]]
  files := ⟨[(["src", "disks", "Disk.m"], .source "classdef Disk < Shape\nend\n".toUTF8.toList),
    (["src", "disks", "shapes", "Shape.m"], .source "classdef Shape\nend\n".toUTF8.toList)]⟩

theorem memberLinks_shapeTree :
    (memberLinks "disks" "Disk" (({ tree := shapeTree, root := "src" } : Catalog).after
      [.load "disks"])).1 = .ok (some [":class:`src.disks.shapes.Shape`".toList]) := by
  decide +kernel

private theorem loaded_shapeTree : ∀ package ∈ searchedPackages shapeTree "src",
    ((({ tree := shapeTree, root := "src" } : Catalog).after
      [.load "disks.shapes.Shape", .load "disks", .ask (.folder 0) "Disk"]).modules.get?
        package).isSome =
      ((({ tree := shapeTree, root := "src" } : Catalog).after [.load "disks"]).modules.get?
        package).isSome := by
  decide +kernel

/-- More lookups make no difference as long as they load none of the searched packages. -/
theorem base_links_of_loaded_packages_shapeTree :
    (memberLinks "disks" "Disk" (({ tree := shapeTree, root := "src" } : Catalog).after
      [.load "disks.shapes.Shape", .load "disks", .ask (.folder 0) "Disk"])).1 =
      .ok (some [":class:`src.disks.shapes.Shape`".toList]) := by
  have searched : "disks".toList ∈ searchedPackages shapeTree "src" := by decide +kernel
  have known : (({ tree := shapeTree, root := "src" } : Catalog).after
      [.load "disks"]).modules.get? "disks" = some 0 := rfl
  obtain ⟨sameLinks, _⟩ := base_links_of_loaded_packages shapeTree "src" none false
    [.load "disks"] [.load "disks.shapes.Shape", .load "disks", .ask (.folder 0) "Disk"]
  obtain ⟨other, otherKnown⟩ := Option.isSome_iff_exists.mp
    ((loaded_shapeTree _ searched).trans (congrArg Option.isSome known))
  rw [sameLinks loaded_shapeTree "disks" "Disk" 0 other known otherKnown, memberLinks_shapeTree]

/-- The link to a base class changes when its module is loaded. -/
theorem link_changes_with_loaded_module :
    let fresh : Catalog := { tree := shapeTree, root := "src" }
    (memberLinks "disks" "Disk" (fresh.after [.load "disks"])).1 =
      .ok (some [":class:`src.disks.shapes.Shape`".toList]) ∧
    (memberLinks "disks" "Disk" (fresh.after [.load "disks", .load "disks.shapes"])).1 =
      .ok (some [":class:`disks.shapes.Shape`".toList]) := by
  constructor
  · exact memberLinks_shapeTree
  · decide +kernel

end MatlabDocs.Catalog
