import MatlabDocs.Proofs.Catalog.Coherence

/-!
# Two catalogs of one source tree

Two catalogs of the same source tree may have got their contents by different lookups.  They
number things differently, and one may remember what the other one has still to read, but a
folder that is loaded in both of them answers alike.  The catalogs are compared for some packages,
of which the same ones are loaded in both; a lookup in both of them keeps this.
-/

namespace MatlabDocs

open List

/-- A part of a folder, as it is when the folder has this number. -/
def Value.renumbered (number : Nat) : Value → Value
  | .contents _ => .contents number
  | .internal _ name => .internal (.folder number) name
  | value => value

namespace Catalog

/-- Two catalogs of one source tree in which the same ones of the packages are loaded. -/
structure Agree (packages : List Text) (first second : Catalog) : Prop where
  tree_eq : second.tree = first.tree
  root_eq : second.root = first.root
  encoding_eq : second.encoding = first.encoding
  forPages_eq : second.forPages = first.forPages
  firstCoherent : first.Coherent
  secondCoherent : second.Coherent
  loaded : ∀ package ∈ packages,
    (second.modules.get? package).isSome = (first.modules.get? package).isSome

/-- What two catalogs say alike of a name, up to the numbers of folders and definitions. -/
inductive Alike (first second : Catalog) : Value → Value → Prop where
  | same {value : Value} : value.isEntity = false → Alike first second value value
  | contents (number other : Nat) : Alike first second (.contents number) (.contents other)
  | internal (owner other : Entity) (name : Text) :
      Alike first second (.internal owner name) (.internal other name)
  | folder (number other : Nat) :
      Alike first second (.entity (.folder number)) (.entity (.folder other))
  | definition {number other : Nat} {definition : Definition} :
      first.definition? number = some definition → second.definition? other = some definition →
      Alike first second (.entity (.definition number)) (.entity (.definition other))

namespace Alike

variable {first second firstAfter secondAfter : Catalog} {value other : Value}

theorem of_grows (alike : Alike first second value other) (firstGrows : first.Grows firstAfter)
    (secondGrows : second.Grows secondAfter) : Alike firstAfter secondAfter value other := by
  cases alike with
  | same plain => exact .same plain
  | contents number other => exact .contents number other
  | internal owner other name => exact .internal owner other name
  | folder number other => exact .folder number other
  | definition known otherKnown =>
    exact .definition (firstGrows.definitions _ _ known) (secondGrows.definitions _ _ otherKnown)

theorem of_renumbered (plain : ∀ entity, value ≠ .entity entity) (number : Nat) :
    Alike first second value (value.renumbered number) := by
  cases value with
  | contents folder => exact .contents folder number
  | internal owner name => exact .internal owner (.folder number) name
  | entity entity => exact absurd rfl (plain entity)
  | _ => exact .same rfl

theorem isPresent_eq (alike : Alike first second value other) :
    other.isPresent = value.isPresent := by
  cases alike <;> rfl

end Alike

namespace Agree

variable {packages : List Text} {first second firstAfter secondAfter : Catalog}
  (agree : Agree packages first second)
include agree

theorem target_eq (name : Text) : second.target name = first.target name := by
  rw [target, target, agree.tree_eq, agree.root_eq, agree.encoding_eq]

variable (firstReaches : first.Reaches firstAfter) (secondReaches : second.Reaches secondAfter)
include firstReaches secondReaches

theorem of_reaches (loaded : ∀ package ∈ packages,
      (secondAfter.modules.get? package).isSome = (firstAfter.modules.get? package).isSome) :
    Agree packages firstAfter secondAfter := by
  obtain ⟨tree, root, encoding, forPages⟩ := firstReaches.settings_eq
  obtain ⟨otherTree, otherRoot, otherEncoding, otherForPages⟩ := secondReaches.settings_eq
  constructor
  · rw [otherTree, agree.tree_eq, tree]
  · rw [otherRoot, agree.root_eq, root]
  · rw [otherEncoding, agree.encoding_eq, encoding]
  · rw [otherForPages, agree.forPages_eq, forPages]
  · exact firstReaches.coherent agree.firstCoherent
  · exact secondReaches.coherent agree.secondCoherent
  · exact loaded

theorem of_pure_loading (firstSame : firstAfter.modules = first.modules)
    (secondSame : secondAfter.modules = second.modules) :
    Agree packages firstAfter secondAfter := by
  apply agree.of_reaches firstReaches secondReaches
  rw [firstSame, secondSame]
  exact agree.loaded

end Agree

/-- The outcomes of two lookups that started from these catalogs: the same fault, or related
answers in catalogs that agree. -/
inductive Matches {α : Type} (packages : List Text) (related : Catalog → Catalog → α → α → Prop)
    (first second : Catalog) : Except Fault α × Catalog → Except Fault α × Catalog → Prop where
  | ok {value other : α} {firstAfter secondAfter : Catalog} :
      first.Reaches firstAfter → second.Reaches secondAfter →
      Agree packages firstAfter secondAfter → related firstAfter secondAfter value other →
      Matches packages related first second (.ok value, firstAfter) (.ok other, secondAfter)
  | error {fault : Fault} {firstAfter secondAfter : Catalog} :
      Matches packages related first second (.error fault, firstAfter) (.error fault, secondAfter)

namespace Matches

variable {α β : Type} {packages : List Text} {related : Catalog → Catalog → α → α → Prop}
  {results : Catalog → Catalog → β → β → Prop} {first second firstAfter secondAfter : Catalog}

theorem of_pure {value other : α} (agree : Agree packages first second)
    (holds : related first second value other) :
    Matches packages related first second ((pure value : Loads α) first)
      ((pure other : Loads α) second) :=
  .ok .refl .refl agree holds

theorem after {left right : Except Fault α × Catalog}
    (matched : Matches packages related firstAfter secondAfter left right)
    (firstReaches : first.Reaches firstAfter) (secondReaches : second.Reaches secondAfter) :
    Matches packages related first second left right := by
  cases matched with
  | ok firstOn secondOn agree holds =>
    exact .ok (firstReaches.trans firstOn) (secondReaches.trans secondOn) agree holds
  | error => exact .error

theorem bind {left right : Loads α} {next otherNext : α → Loads β}
    (given : Matches packages related first second (left first) (right second))
    (later : ∀ value other firstAfter secondAfter, first.Reaches firstAfter →
      second.Reaches secondAfter → Agree packages firstAfter secondAfter →
      related firstAfter secondAfter value other →
      Matches packages results firstAfter secondAfter (next value firstAfter)
        (otherNext other secondAfter)) :
    Matches packages results first second ((left >>= next) first)
      ((right >>= otherNext) second) := by
  rw [Loads.bind_eq, Loads.bind_eq]
  generalize left first = outcome, right second = twin at given
  cases given with
  | ok firstReaches secondReaches agree holds =>
    exact (later _ _ _ _ firstReaches secondReaches agree holds).after firstReaches secondReaches
  | error => exact .error

theorem outcome_eq {left right : Except Fault α × Catalog}
    (matched : Matches packages (fun _ _ value other => other = value) first second left right) :
    right.1 = left.1 := by
  cases matched with
  | ok _ _ _ same => exact congrArg Except.ok same
  | error => rfl

theorem foldlM {step : β → α → Loads β} {items : List α} {value other : β}
    (agree : Agree packages first second) (holds : results first second value other)
    (each : ∀ item ∈ items, ∀ value other firstAfter secondAfter, first.Reaches firstAfter →
      second.Reaches secondAfter → Agree packages firstAfter secondAfter →
      results firstAfter secondAfter value other →
      Matches packages results firstAfter secondAfter (step value item firstAfter)
        (step other item secondAfter)) :
    Matches packages results first second (items.foldlM step value first)
      (items.foldlM step other second) := by
  induction items generalizing first second value other with
  | nil => exact .of_pure agree holds
  | cons item items ih =>
    rw [foldlM_cons, foldlM_cons]
    refine (each item mem_cons_self value other first second .refl .refl agree holds).bind ?_
    intro value other firstAfter secondAfter firstReaches secondReaches agree holds
    apply ih agree holds
    intro item member value other firstLast secondLast firstOn secondOn
    exact each item (mem_cons_of_mem _ member) value other firstLast secondLast
      (firstReaches.trans firstOn) (secondReaches.trans secondOn)

end Matches

section

variable {packages : List Text} {first second : Catalog} {number other : Nat} {folder twin : Folder}

/-- The same folder, as it is loaded in each of the catalogs. -/
structure Twins (first second : Catalog) (number other : Nat) (folder twin : Folder) : Prop where
  firstLoaded : first.folder? number = some folder
  secondLoaded : second.folder? other = some twin
  package_eq : twin.package = folder.package

theorem Twins.name_path_eq (twins : Twins first second number other folder twin)
    (agree : Agree packages first second) : twin.name = folder.name ∧ twin.path = folder.path := by
  have firstPlaced := agree.firstCoherent.placed number folder twins.firstLoaded
  have secondPlaced := agree.secondCoherent.placed other twin twins.secondLoaded
  rw [agree.target_eq, twins.package_eq, firstPlaced] at secondPlaced
  obtain ⟨name, path⟩ := Target.folder.inj secondPlaced
  exact ⟨name.symm, path.symm⟩

theorem Twins.of_reaches {firstAfter secondAfter : Catalog}
    (twins : Twins first second number other folder twin)
    (firstReaches : first.Reaches firstAfter) (secondReaches : second.Reaches secondAfter) :
    ∃ folder twin, Twins firstAfter secondAfter number other folder twin := by
  obtain ⟨grown, isGrown, grows⟩ := firstReaches.grows.folders number folder twins.firstLoaded
  obtain ⟨twinGrown, isTwinGrown, twinGrows⟩ :=
    secondReaches.grows.folders other twin twins.secondLoaded
  refine ⟨grown, twinGrown, isGrown, isTwinGrown, ?_⟩
  rw [twinGrows.package_eq, twins.package_eq, grows.package_eq]

theorem lookup_map_snd {α β : Type} (change : α → β) (name : Text) (entries : List (Text × α)) :
    (entries.map fun entry => (entry.1, change entry.2)).lookup name =
      (entries.lookup name).map change := by
  induction entries with
  | nil => rfl
  | cons entry entries ih =>
    rw [map_cons, lookup_cons, lookup_cons, ih]
    split <;> rfl

variable (agree : Agree packages first second) (twins : Twins first second number other folder twin)
include agree twins

private theorem ownParts_renumbered :
    second.ownParts other twin =
      (first.ownParts number folder).map fun part => (part.1, part.2.renumbered other) := by
  obtain ⟨name, path⟩ := twins.name_path_eq agree
  rw [ownParts, ownParts, name, path, twins.package_eq, agree.root_eq, agree.encoding_eq,
    map_append, map_map]
  simp only [sitePart, agree.forPages_eq]
  generalize first.forPages = forPages, first.encoding = encoding
  cases forPages <;> cases encoding <;> rfl

theorem memberOfFolder_matches (name : Text) :
    Matches packages Alike first second (memberOfFolder number name first)
      (memberOfFolder other name second) := by
  have firstCoherent := agree.firstCoherent
  have secondCoherent := agree.secondCoherent
  have otherLookup : (second.ownParts other twin).lookup name =
      ((first.ownParts number folder).lookup name).map (Value.renumbered other) := by
    rw [ownParts_renumbered agree twins, lookup_map_snd]
  cases own : (first.ownParts number folder).lookup name with
  | some value =>
    rw [own] at otherLookup
    rw [memberOfFolder_of_own twins.firstLoaded own,
      memberOfFolder_of_own twins.secondLoaded otherLookup]
    apply Matches.of_pure agree
    exact .of_renumbered (fun entity => ownParts_ne_entity own) other
  | none =>
    -- Either catalog may remember the member already: being coherent, they answer by where the
    -- name leads, and it leads to the same place in both.
    have free := (lookup_ownParts_eq_none_iff first number folder).mp own
    have sameTarget : second.target (twin.package ++ "." ++ name) =
        first.target (folder.package ++ "." ++ name) := by
      rw [twins.package_eq, agree.target_eq]
    cases leads : first.target (folder.package ++ "." ++ name) with
    | nothing =>
      rw [memberOfFolder_of_nothing firstCoherent twins.firstLoaded free leads,
        memberOfFolder_of_nothing secondCoherent twins.secondLoaded free (sameTarget.trans leads)]
      exact .of_pure agree (.same rfl)
    | folder last path =>
      obtain ⟨found, firstAfter, asked, modules⟩ :=
        memberOfFolder_of_folder firstCoherent twins.firstLoaded free leads
      obtain ⟨otherFound, secondAfter, otherAsked, otherModules⟩ :=
        memberOfFolder_of_folder secondCoherent twins.secondLoaded free (sameTarget.trans leads)
      have firstReaches := memberOfFolder_moves.reaches asked
      have secondReaches := memberOfFolder_moves.reaches otherAsked
      rw [asked, otherAsked]
      refine .ok firstReaches secondReaches ?_ (.folder found otherFound)
      apply agree.of_reaches firstReaches secondReaches
      intro package member
      rw [modules, otherModules, twins.package_eq]
      split
      · rfl
      · exact agree.loaded package member
    | file reading =>
      cases result : reading.result with
      | ok definition =>
        obtain ⟨found, firstAfter, asked, known, modules⟩ :=
          memberOfFolder_of_read firstCoherent twins.firstLoaded free leads result
        obtain ⟨otherFound, secondAfter, otherAsked, otherKnown, otherModules⟩ :=
          memberOfFolder_of_read secondCoherent twins.secondLoaded free
            (sameTarget.trans leads) result
        have firstReaches := memberOfFolder_moves.reaches asked
        have secondReaches := memberOfFolder_moves.reaches otherAsked
        rw [asked, otherAsked]
        exact .ok firstReaches secondReaches
          (agree.of_pure_loading firstReaches secondReaches modules otherModules)
          (.definition known otherKnown)
      | error fault =>
        obtain ⟨firstAfter, asked⟩ :=
          memberOfFolder_of_failed firstCoherent twins.firstLoaded free leads result
        obtain ⟨secondAfter, otherAsked⟩ :=
          memberOfFolder_of_failed secondCoherent twins.secondLoaded free
            (sameTarget.trans leads) result
        rw [asked, otherAsked]
        exact .error

private theorem collectMembers_matches {found others : List (Text × Value)}
    (sameNames : found.map Prod.fst = others.map Prod.fst) (names : List Text) :
    Matches packages (fun _ _ found others => found.map Prod.fst = others.map Prod.fst) first second
      (collectMembers number found names first) (collectMembers other others names second) := by
  induction names generalizing first second folder twin found others with
  | nil => exact .of_pure agree sameNames
  | cons name names ih =>
    have sameSeen : others.any (·.1 == name) ↔ found.any (·.1 == name) := by
      rw [any_eq_true_iff_mem_keys, any_eq_true_iff_mem_keys, sameNames]
    by_cases seen : found.any (·.1 == name)
    · rw [collectMembers_of_seen seen, collectMembers_of_seen (sameSeen.mpr seen)]
      exact ih agree twins sameNames
    have otherNew := fun otherSeen => seen (sameSeen.mp otherSeen)
    by_cases isList : name = "__all__".toList
    · rw [collectMembers_of_list seen isList, collectMembers_of_list otherNew isList]
      exact .error
    rw [collectMembers_of_new seen isList, collectMembers_of_new otherNew isList]
    apply (memberOfFolder_matches agree twins name).bind
    intro value otherValue firstAfter secondAfter firstReaches secondReaches agree alike
    obtain ⟨folder, twin, twins⟩ := twins.of_reaches firstReaches secondReaches
    apply ih agree twins
    rw [alike.isPresent_eq]
    split
    · rw [map_append, map_append, sameNames]
      rfl
    · exact sameNames

private theorem membersOfFolder_matches :
    Matches packages (fun _ _ members others => members.map Prod.fst = others.map Prod.fst)
      first second (membersOfFolder number first) (membersOfFolder other second) := by
  rw [membersOfFolder_eq twins.firstLoaded (agree.firstCoherent.isFolder twins.firstLoaded),
    membersOfFolder_eq twins.secondLoaded (agree.secondCoherent.isFolder twins.secondLoaded),
    agree.tree_eq, (twins.name_path_eq agree).2]
  apply (collectMembers_matches agree twins rfl _).bind
  intro found others firstAfter secondAfter _ _ agree sameNames
  apply Matches.of_pure agree
  have sorted : ∀ entries : List (Text × Value),
      (entries.mergeSort fun a b => SourceTree.nameLe a.1 b.1).map Prod.fst =
        (entries.map Prod.fst).mergeSort SourceTree.nameLe := by
    intro entries
    apply map_mergeSort
    intro a _ b _
    rfl
  rw [sorted, sorted, sameNames]

theorem askFolder_matches (name : Text) :
    Matches packages Alike first second (askFolder number name first)
      (askFolder other name second) := by
  by_cases isList : name = "__all__".toList
  · rw [askFolder, askFolder, if_pos (by simpa using isList), if_pos (by simpa using isList)]
    apply (membersOfFolder_matches agree twins).bind
    intro members others firstAfter secondAfter _ _ agree sameNames
    apply Matches.of_pure agree
    have sameTexts : members.map (fun entry => Value.text entry.1) =
        others.map fun entry => .text entry.1 := by
      simpa [Function.comp_def] using congrArg (map Value.text) sameNames
    exact sameTexts ▸ .same rfl
  · rw [askFolder_of_ne isList, askFolder_of_ne isList]
    exact memberOfFolder_matches agree twins name

end

end Catalog

end MatlabDocs
