import MatlabDocs.Proofs.Catalog.Changes

/-!
# What has been loaded stays

Between two lookups anything may be looked up, the files may change, and another root may be
set.  None of this takes back what has been loaded: a module stays the folder that it was, a
folder keeps its members, and a member that was found once is found again as the same thing,
with nothing read for it.
-/

namespace MatlabDocs

/-- The same folder, with at least the members that it had. -/
structure Folder.Grows (before after : Folder) : Prop where
  name_eq : after.name = before.name
  path_eq : after.path = before.path
  package_eq : after.package = before.package
  members : ∀ name entity, before.members.get? name = some entity →
    after.members.get? name = some entity

namespace Folder.Grows

variable {first second third : Folder}

theorem refl (folder : Folder) : folder.Grows folder :=
  ⟨rfl, rfl, rfl, fun _ _ known => known⟩

theorem trans (left : first.Grows second) (right : second.Grows third) : first.Grows third where
  name_eq := right.name_eq.trans left.name_eq
  path_eq := right.path_eq.trans left.path_eq
  package_eq := right.package_eq.trans left.package_eq
  members name entity known := right.members name entity (left.members name entity known)

end Folder.Grows

def Value.isEntity : Value → Bool
  | .entity _ => true
  | _ => false

def Folder.withMember (folder : Folder) (name : Text) (entity : Entity) : Folder :=
  { folder with members := folder.members.insert name entity }

theorem Folder.grows_withMember {folder : Folder} {name : Text}
    (new : folder.members.get? name = none) (entity : Entity) :
    folder.Grows (folder.withMember name entity) where
  name_eq := rfl
  path_eq := rfl
  package_eq := rfl
  members other known isKnown := by
    rw [withMember, Table.get?_insert, if_neg]
    · exact isKnown
    · rintro rfl
      rw [new] at isKnown
      cases isKnown

namespace Catalog

/-- Each module is a folder with the name of the module. -/
def Registered (catalog : Catalog) : Prop :=
  ∀ package number, catalog.modules.get? package = some number →
    ∃ folder, catalog.folder? number = some folder ∧ folder.package = package

/-- All that was loaded before is there as it was. -/
structure Grows (before after : Catalog) : Prop where
  modules : ∀ package number, before.modules.get? package = some number →
    after.modules.get? package = some number
  folders : ∀ number folder, before.folder? number = some folder →
    ∃ grown, after.folder? number = some grown ∧ folder.Grows grown
  definitions : ∀ number definition, before.definition? number = some definition →
    after.definition? number = some definition
  registered : before.Registered → after.Registered

namespace Grows

variable {first second third : Catalog}

theorem of_eq (modules : second.modules = first.modules) (folders : second.folders = first.folders)
    (definitions : second.definitions = first.definitions) : first.Grows second where
  modules package number known := by rw [modules, known]
  folders number folder loaded := ⟨folder, by rw [folder?, folders]; exact loaded, .refl folder⟩
  definitions number definition known := by rw [definition?, definitions]; exact known
  registered registered package number known := by
    rw [modules] at known
    rw [folder?, folders]
    exact registered package number known

theorem trans (left : first.Grows second) (right : second.Grows third) : first.Grows third where
  modules package number known := right.modules package number (left.modules package number known)
  folders number folder loaded := by
    obtain ⟨middle, isMiddle, grows⟩ := left.folders number folder loaded
    obtain ⟨grown, isGrown, growsOn⟩ := right.folders number middle isMiddle
    exact ⟨grown, isGrown, grows.trans growsOn⟩
  definitions number definition known :=
    right.definitions number definition (left.definitions number definition known)
  registered registered := right.registered (left.registered registered)

end Grows

section

variable {catalog : Catalog}

theorem folder?_addFolder {number : Nat} {folder : Folder} (package name path : Text)
    (loaded : catalog.folder? number = some folder) :
    (catalog.addFolder package name path).folder? number = some folder :=
  (List.getElem?_append_left (List.getElem?_eq_some_iff.mp loaded).1).trans loaded

theorem folder?_addFolder_new (package name path : Text) :
    (catalog.addFolder package name path).folder? catalog.folders.length =
      some { name, path, package } := by
  simp [addFolder, folder?]

theorem modules_addFolder (package name path other : Text) :
    (catalog.addFolder package name path).modules.get? other =
      if other = package then some catalog.folders.length else catalog.modules.get? other :=
  Table.get?_insert _ _ _ _

theorem folder?_setMember (number other : Nat) (name : Text) (entity : Entity) :
    (catalog.setMember number name entity).folder? other =
      (catalog.folder? other).map fun folder =>
        if number = other then folder.withMember name entity else folder := by
  rw [setMember, folder?, List.getElem?_modify]
  split <;> rfl

theorem Change.grows {before after : Catalog} (change : Change before after) :
    before.Grows after := by
  cases change with
  | notice notices => exact .of_eq rfl rfl rfl
  | analysis analyzed _ _ => exact .of_eq rfl rfl rfl
  | definition added =>
    refine ⟨fun _ _ known => known, fun _ folder loaded => ⟨folder, loaded, .refl folder⟩, ?_,
      fun registered => registered⟩
    intro number definition known
    exact (List.getElem?_append_left (List.getElem?_eq_some_iff.mp known).1).trans known
  | @folder package name path _ new =>
    refine ⟨?_, ?_, fun _ _ known => known, ?_⟩
    · intro other number known
      rw [modules_addFolder, if_neg]
      · exact known
      · rintro rfl
        rw [new] at known
        cases known
    · intro number folder loaded
      exact ⟨folder, folder?_addFolder package name path loaded, .refl folder⟩
    · intro registered other number known
      rw [modules_addFolder] at known
      split at known
      · rename_i isNew
        cases known
        exact ⟨_, folder?_addFolder_new package name path, isNew.symm⟩
      · obtain ⟨folder, loaded, named⟩ := registered other number known
        exact ⟨folder, folder?_addFolder package name path loaded, named⟩
  | @member number folder name entity loaded _ new _ =>
    have remembered : ∀ other known, before.folder? other = some known →
        ∃ grown, (before.setMember number name entity).folder? other = some grown ∧
          known.Grows grown := by
      intro other known isKnown
      rw [folder?_setMember, isKnown]
      refine ⟨_, rfl, ?_⟩
      dsimp only
      split
      · rename_i same
        subst same
        cases loaded.symm.trans isKnown
        exact Folder.grows_withMember new entity
      · exact .refl known
    refine ⟨fun _ _ known => known, remembered, fun _ _ known => known, ?_⟩
    intro registered package other known
    obtain ⟨folder, isFolder, named⟩ := registered package other known
    obtain ⟨grown, isGrown, grows⟩ := remembered other folder isFolder
    exact ⟨grown, isGrown, grows.package_eq.trans named⟩

theorem Reaches.grows {before after : Catalog} (reaches : before.Reaches after) :
    before.Grows after := by
  induction reaches with
  | refl => exact .of_eq rfl rfl rfl
  | tail _ change ih => exact ih.trans change.grows

end

section

variable {before after : Catalog} {number : Nat} {folder : Folder} {name : Text} {entity : Entity}

private theorem isEntity_ownParts (catalog : Catalog) (number : Nat) (folder : Folder) :
    ∀ part ∈ catalog.ownParts number folder, part.2.isEntity = false := by
  have site : ∀ name : Text, (catalog.sitePart (.folder number) name).isEntity = false := by
    intro name
    rw [sitePart]
    split <;> rfl
  have encoding : (Value.ofText? catalog.encoding).isEntity = false := by
    cases catalog.encoding <;> rfl
  rw [ownParts, List.forall_mem_append]
  constructor
  · simp only [List.forall_mem_cons]
    exact ⟨rfl, rfl, rfl, rfl, rfl, rfl, rfl, rfl, rfl, rfl, encoding, site _, site _, rfl, rfl,
      fun _ none => absurd none List.not_mem_nil⟩
  · intro part member
    obtain ⟨name, _, rfl⟩ := List.mem_map.mp member
    rfl

theorem ownParts_ne_entity {value : Value}
    (own : (before.ownParts number folder).lookup name = some value) : value ≠ .entity entity := by
  rintro rfl
  obtain ⟨front, rest, isPart, _⟩ := List.lookup_eq_some_iff.mp own
  have part : (name, Value.entity entity) ∈ before.ownParts number folder := by
    rw [isPart]
    exact List.mem_append_right _ List.mem_cons_self
  cases isEntity_ownParts before number folder _ part

theorem askFolder_of_ne (notList : name ≠ "__all__".toList) :
    askFolder number name = memberOfFolder number name := by
  rw [askFolder, if_neg]
  simpa using notList

theorem askFolder_of_known (notList : name ≠ "__all__".toList) (free : name ∉ ownNames)
    (loaded : before.folder? number = some folder)
    (known : folder.members.get? name = some entity) :
    askFolder number name before = (.ok (.entity entity), before) := by
  rw [askFolder_of_ne notList]
  exact memberOfFolder_of_known loaded free known

theorem member_of_memberOfFolder
    (asked : memberOfFolder number name before = (.ok (.entity entity), after)) :
    name ∉ ownNames ∧ ∃ folder, after.folder? number = some folder ∧
      folder.members.get? name = some entity := by
  cases loaded : before.folder? number with
  | none =>
    rw [memberOfFolder_of_absent loaded] at asked
    cases asked
  | some folder =>
    cases own : (before.ownParts number folder).lookup name with
    | some value =>
      rw [memberOfFolder_of_own loaded own] at asked
      cases asked
      exact absurd rfl (ownParts_ne_entity own)
    | none =>
      have free := (lookup_ownParts_eq_none_iff before number folder).mp own
      refine ⟨free, ?_⟩
      cases known : folder.members.get? name with
      | some other =>
        rw [memberOfFolder_of_known loaded free known] at asked
        cases asked
        exact ⟨folder, loaded, known⟩
      | none =>
        rw [memberOfFolder_of_new loaded free known] at asked
        have kept := folder?_load loaded (folder.package ++ "." ++ name)
        rcases given : load (folder.package ++ "." ++ name) before with
          ⟨fault | none | found, middle⟩
        · rw [loadMember_of_error given] at asked
          cases asked
        · rw [loadMember_of_nothing given] at asked
          cases asked
        · rw [loadMember_of_entity given] at asked
          rw [given] at kept
          cases asked
          rw [folder?_setMember, kept]
          exact ⟨_, rfl, by simp [Folder.withMember]⟩

theorem member_of_askFolder (asked : askFolder number name before = (.ok (.entity entity), after)) :
    name ≠ "__all__".toList ∧ name ∉ ownNames ∧ ∃ folder, after.folder? number = some folder ∧
      folder.members.get? name = some entity := by
  have notList : name ≠ "__all__".toList := by
    rintro rfl
    rw [askFolder, if_pos (by decide)] at asked
    obtain ⟨_, _, _, isLast⟩ := Loads.ok_of_bind asked
    cases isLast
  rw [askFolder_of_ne notList] at asked
  exact ⟨notList, member_of_memberOfFolder asked⟩

end

end Catalog

/-- What may happen while things are looked up: another lookup, other files, another root with
another encoding. -/
inductive Event where
  | lookup (lookup : Lookup)
  | files (tree : SourceTree)
  | setup (root : Text) (encoding : Option Text)

namespace Catalog

variable (catalog : Catalog) (events : List Event)

def apply : Event → Catalog
  | .lookup lookup => (lookup.run catalog).2
  | .files tree => { catalog with tree }
  | .setup root encoding => { catalog with root, encoding }

def through : Catalog :=
  events.foldl apply catalog

private theorem grows_apply (event : Event) : catalog.Grows (catalog.apply event) := by
  cases event with
  | lookup lookup => exact ((lookup.run_moves catalog).reaches rfl).grows
  | files tree => exact .of_eq rfl rfl rfl
  | setup root encoding => exact .of_eq rfl rfl rfl

private theorem grows_through : catalog.Grows (catalog.through events) := by
  induction events generalizing catalog with
  | nil => exact .of_eq rfl rfl rfl
  | cons event events ih => exact (catalog.grows_apply event).trans (ih _)

/-- Whatever is looked up, and whatever happens to the files and to the root: each module is a
folder of its name, and stays this folder with all its members.  A folder that has answered to a
name with an entity answers with the same one ever after.  Nothing is read then, since the catalog
stays as it is, and what was read before is still the same. -/
theorem modules_and_members_stay (tree : SourceTree) (root : Text) (encoding : Option Text)
    (forPages : Bool) (earlier later : List Event) :
    let catalog := ({ tree, root, encoding, forPages } : Catalog).through earlier
    (∀ package number, catalog.modules.get? package = some number →
      ∃ folder grown, catalog.folder? number = some folder ∧ folder.package = package ∧
        (catalog.through later).modules.get? package = some number ∧
        (catalog.through later).folder? number = some grown ∧ folder.Grows grown) ∧
    ∀ number name entity next, askFolder number name catalog = (.ok (.entity entity), next) →
      askFolder number name (next.through later) = (.ok (.entity entity), next.through later) ∧
      ∀ index definition, next.definition? index = some definition →
        (next.through later).definition? index = some definition := by
  intro catalog
  have registered : catalog.Registered := by
    apply (grows_through _ earlier).registered
    intro package number known
    cases known
  constructor
  · intro package number known
    have grows := grows_through catalog later
    obtain ⟨folder, loaded, named⟩ := registered package number known
    obtain ⟨grown, isGrown, growsFolder⟩ := grows.folders number folder loaded
    exact ⟨folder, grown, loaded, named, grows.modules package number known, isGrown, growsFolder⟩
  · intro number name entity next asked
    have grows := grows_through next later
    obtain ⟨notList, free, folder, loaded, known⟩ := member_of_askFolder asked
    obtain ⟨grown, isGrown, growsFolder⟩ := grows.folders number folder loaded
    refine ⟨?_, grows.definitions⟩
    exact askFolder_of_known notList free isGrown (growsFolder.members name entity known)

def areaTree : SourceTree where
  folders := [["src"], ["src", "geo"]]
  files := ⟨[(["src", "geo", "area.m"], .source "% Area".toUTF8.toList)]⟩

/-- The file is gone and the root is another one, but the folder has not forgotten it. -/
theorem modules_and_members_stay_areaTree :
    let catalog := ({ tree := areaTree, root := "src" } : Catalog).through [.lookup (.load "geo")]
    let later : List Event := [.files {}, .setup "other" none, .lookup (.load "geo.area")]
    (catalog.through later).modules.get? "geo" = some 0 ∧
    ∃ next : Catalog, askFolder 0 "area" catalog = (.ok (.entity (.definition 0)), next) ∧
      askFolder 0 "area" (next.through later) =
        (.ok (.entity (.definition 0)), next.through later) := by
  intro catalog later
  have leads : catalog.target "geo.area" =
      .file (Definition.ofBytes "area" "geo" none "% Area".toUTF8.toList) := rfl
  have isRead : (Definition.ofBytes "area" "geo" none "% Area".toUTF8.toList).result.isOk := by
    decide +kernel
  obtain ⟨modules, members⟩ :=
    modules_and_members_stay areaTree "src" none false [.lookup (.load "geo")] later
  obtain ⟨_, _, _, _, staysModule, _⟩ := modules "geo" 0 rfl
  refine ⟨staysModule, ?_⟩
  cases read : (Definition.ofBytes "area" "geo" none "% Area".toUTF8.toList).result with
  | error fault =>
    rw [read] at isRead
    cases isRead
  | ok definition =>
    obtain ⟨next, asked⟩ : ∃ next : Catalog,
        askFolder 0 "area" catalog = (.ok (.entity (.definition 0)), next) := by
      rw [askFolder_of_ne (by decide), memberOfFolder_of_new rfl (by decide) rfl]
      exact ⟨_, loadMember_of_entity (load_of_ok leads read)⟩
    exact ⟨next, asked, (members 0 "area" _ _ asked).1⟩

end Catalog

end MatlabDocs
