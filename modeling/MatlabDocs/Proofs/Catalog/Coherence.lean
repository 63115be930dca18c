import MatlabDocs.Proofs.Catalog.Stability
import MatlabDocs.Proofs.SourceTree.Places

/-!
# The catalog and the source tree

As long as the files do not change, the catalog says of each name what the source tree says of
it: a module is the folder that its dotted name leads to, and a member of a folder is what the
name of the member leads to behind that of the folder.  This is so after any lookups, since
each step of loading keeps it.
-/

namespace MatlabDocs.Catalog

/-- What is loaded agrees with what the dotted names lead to. -/
structure Coherent (catalog : Catalog) : Prop where
  registered : catalog.Registered
  listed : ∀ number folder, catalog.folder? number = some folder →
    catalog.modules.get? folder.package = some number
  placed : ∀ number folder, catalog.folder? number = some folder →
    catalog.target folder.package = .folder folder.name folder.path
  standing : ∀ number folder name entity, catalog.folder? number = some folder →
    folder.members.get? name = some entity →
      name ∉ ownNames ∧ catalog.Stands (folder.package ++ "." ++ name) entity

theorem target_eq {catalog : Catalog} {name : Text} (notEmpty : name ≠ []) :
    catalog.target name =
      if catalog.tree.isFolder (Path.join catalog.root (Path.ofDotted name)) then
        .folder (Path.split (Path.ofDotted name)).2 (Path.join catalog.root (Path.ofDotted name))
      else
        match catalog.tree.file? (Path.join catalog.root (Path.ofDotted name) ++ ".m") with
        | some file => .file (Definition.ofBytes (Path.split (Path.ofDotted name)).2
            (Path.split (Path.ofDotted name)).1 catalog.encoding file.bytes)
        | none =>
          match catalog.tree.file? (Path.join catalog.root (Path.ofDotted name) ++ ".mlapp") with
          | some file => .file (applicationReading (Path.split (Path.ofDotted name)).2
              (Path.split (Path.ofDotted name)).1 file)
          | none => .nothing := by
  unfold target
  exact if_neg notEmpty

theorem path_of_target {catalog : Catalog} {package last path : Text}
    (leads : catalog.target package = .folder last path) :
    package ≠ [] ∧ path = Path.join catalog.root (Path.ofDotted package) ∧
      catalog.tree.isFolder path := by
  have notEmpty : package ≠ [] := by
    rintro rfl
    cases leads
  rw [target_eq notEmpty] at leads
  split at leads
  · rename_i isFolder
    cases leads
    exact ⟨notEmpty, rfl, isFolder⟩
  · split at leads
    · cases leads
    · split at leads <;> cases leads

section

variable {before after : Catalog}

theorem Change.settings_eq (change : Change before after) :
    after.tree = before.tree ∧ after.root = before.root ∧ after.encoding = before.encoding ∧
      after.forPages = before.forPages := by
  cases change <;> exact ⟨rfl, rfl, rfl, rfl⟩

theorem Change.target_eq (change : Change before after) (name : Text) :
    after.target name = before.target name := by
  cases change <;> rfl

theorem Stands.of_grows {name : Text} {entity : Entity} (stands : before.Stands name entity)
    (grows : before.Grows after) (sameTarget : after.target name = before.target name) :
    after.Stands name entity := by
  cases stands with
  | folder leads known => exact .folder (sameTarget.trans leads) (grows.modules _ _ known)
  | definition leads read known =>
    exact .definition (sameTarget.trans leads) read (grows.definitions _ _ known)

/-- A folder with the members that it had before and perhaps one that its name leads to. -/
structure Folder.StepsTo (catalog : Catalog) (before after : Folder) : Prop where
  name_eq : after.name = before.name
  path_eq : after.path = before.path
  package_eq : after.package = before.package
  members : ∀ name entity, after.members.get? name = some entity →
    before.members.get? name = some entity ∨
      (name ∉ ownNames ∧ catalog.Stands (before.package ++ "." ++ name) entity)

theorem Folder.StepsTo.refl (catalog : Catalog) (folder : Folder) :
    Folder.StepsTo catalog folder folder :=
  ⟨rfl, rfl, rfl, fun _ _ known => .inl known⟩

private theorem Change.folder_cases (change : Change before after) {number : Nat} {folder : Folder}
    (loaded : after.folder? number = some folder) :
    (∃ earlier, before.folder? number = some earlier ∧ Folder.StepsTo before earlier folder) ∨
      (folder.members = {} ∧ after.modules.get? folder.package = some number ∧
        before.target folder.package = .folder folder.name folder.path) := by
  cases change with
  | notice notices => exact .inl ⟨folder, loaded, .refl before folder⟩
  | analysis analyzed _ _ => exact .inl ⟨folder, loaded, .refl before folder⟩
  | definition added => exact .inl ⟨folder, loaded, .refl before folder⟩
  | @folder package name path leads new =>
    by_cases isNew : number = before.folders.length
    · subst isNew
      rw [folder?_addFolder_new] at loaded
      cases loaded
      exact .inr ⟨rfl, by rw [modules_addFolder, if_pos rfl], leads⟩
    · have bound := (List.getElem?_eq_some_iff.mp loaded).1
      have inside : number < before.folders.length := by
        simp only [addFolder, List.length_append, List.length_singleton] at bound
        omega
      have earlier : before.folder? number = some folder := by
        rw [← loaded]
        exact (List.getElem?_append_left inside).symm
      exact .inl ⟨folder, earlier, .refl before folder⟩
  | @member changed owner name entity isOwner free _ stands =>
    rw [folder?_setMember] at loaded
    obtain ⟨earlier, isEarlier, result⟩ := Option.map_eq_some_iff.mp loaded
    refine .inl ⟨earlier, isEarlier, ?_⟩
    subst result
    by_cases same : changed = number
    · subst same
      cases isOwner.symm.trans isEarlier
      rw [if_pos rfl]
      refine ⟨rfl, rfl, rfl, ?_⟩
      intro other known isKnown
      rw [Folder.withMember, Table.get?_insert] at isKnown
      split at isKnown
      · rename_i isName
        cases isKnown
        exact .inr ⟨isName ▸ free, isName ▸ stands⟩
      · exact .inl isKnown
    · rw [if_neg same]
      exact .refl before earlier

theorem Change.coherent (change : Change before after) (coherent : before.Coherent) :
    after.Coherent where
  registered := change.grows.registered coherent.registered
  listed number folder loaded := by
    rcases change.folder_cases loaded with ⟨earlier, isEarlier, step⟩ | ⟨_, known, _⟩
    · rw [step.package_eq]
      exact change.grows.modules _ _ (coherent.listed number earlier isEarlier)
    · exact known
  placed number folder loaded := by
    rw [change.target_eq]
    rcases change.folder_cases loaded with ⟨earlier, isEarlier, step⟩ | ⟨_, _, leads⟩
    · rw [step.package_eq, step.name_eq, step.path_eq]
      exact coherent.placed number earlier isEarlier
    · exact leads
  standing number folder name entity loaded known := by
    rcases change.folder_cases loaded with ⟨earlier, isEarlier, step⟩ | ⟨bare, _, _⟩
    · have stood : name ∉ ownNames ∧ before.Stands (earlier.package ++ "." ++ name) entity := by
        rcases step.members name entity known with old | new
        · exact coherent.standing number earlier name entity isEarlier old
        · exact new
      rw [step.package_eq]
      exact ⟨stood.1, stood.2.of_grows change.grows (change.target_eq _)⟩
    · rw [bare] at known
      cases known

namespace Reaches

theorem coherent (reaches : before.Reaches after) (coherent : before.Coherent) :
    after.Coherent := by
  induction reaches with
  | refl => exact coherent
  | tail _ change ih => exact change.coherent ih

theorem target_eq (reaches : before.Reaches after) (name : Text) :
    after.target name = before.target name := by
  induction reaches with
  | refl => rfl
  | tail _ change ih => rw [change.target_eq, ih]

theorem settings_eq (reaches : before.Reaches after) :
    after.tree = before.tree ∧ after.root = before.root ∧ after.encoding = before.encoding ∧
      after.forPages = before.forPages := by
  induction reaches with
  | refl => exact ⟨rfl, rfl, rfl, rfl⟩
  | tail _ change ih =>
    obtain ⟨tree, root, encoding, forPages⟩ := change.settings_eq
    exact ⟨tree.trans ih.1, root.trans ih.2.1, encoding.trans ih.2.2.1,
      forPages.trans ih.2.2.2⟩

end Reaches

variable (tree : SourceTree) (root : Text) (encoding : Option Text) (forPages : Bool)

theorem coherent_fresh : ({ tree, root, encoding, forPages } : Catalog).Coherent where
  registered package number known := by cases known
  listed number folder loaded := by cases loaded
  placed number folder loaded := by cases loaded
  standing number folder name entity loaded := by cases loaded

theorem coherent_after (lookups : List Lookup) :
    (({ tree, root, encoding, forPages } : Catalog).after lookups).Coherent :=
  (reaches_after _ lookups).coherent (coherent_fresh tree root encoding forPages)

end

/-! ### What a folder answers

A name that is not the folder's own is answered to by what it leads to, be it remembered or not. -/

section

variable {before after : Catalog} {number : Nat} {folder : Folder} {name : Text}
  {reading : Reading Definition}

theorem load_of_folder {last path : Text} (leads : before.target name = .folder last path) :
    ∃ other after, load name before = (.ok (some (.folder other)), after) ∧
      ∀ package, after.modules.get? package =
        if package = name then some other else before.modules.get? package := by
  cases known : before.modules.get? name with
  | some other =>
    refine ⟨other, before, load_of_known leads known, ?_⟩
    intro package
    split
    · rename_i same
      rw [same, known]
    · rfl
  | none => exact ⟨_, _, load_of_new leads known, modules_addFolder name last path⟩

section

variable (coherent : before.Coherent) (loaded : before.folder? number = some folder)
include coherent loaded

theorem definition_of_member {definition : Definition} {entity : Entity}
    (known : folder.members.get? name = some entity)
    (leads : before.target (folder.package ++ "." ++ name) = .file reading)
    (read : reading.result = .ok definition) :
    ∃ index, entity = .definition index ∧ before.definition? index = some definition := by
  cases (coherent.standing number folder name entity loaded known).2 with
  | folder other => cases leads.symm.trans other
  | @definition _ _ index other isRead isKnown =>
    cases leads.symm.trans other
    cases read.symm.trans isRead
    exact ⟨index, rfl, isKnown⟩

variable (free : name ∉ ownNames)
include free

theorem memberOfFolder_of_nothing
    (leads : before.target (folder.package ++ "." ++ name) = .nothing) :
    memberOfFolder number name before = (.ok .nothing, before) := by
  cases known : folder.members.get? name with
  | some entity =>
    cases (coherent.standing number folder name entity loaded known).2 with
    | folder other => cases leads.symm.trans other
    | definition other => cases leads.symm.trans other
  | none =>
    rw [memberOfFolder_of_new loaded free known, loadMember_of_nothing (load_of_nothing leads)]

theorem memberOfFolder_of_folder {last path : Text}
    (leads : before.target (folder.package ++ "." ++ name) = .folder last path) :
    ∃ other after, memberOfFolder number name before = (.ok (.entity (.folder other)), after) ∧
      ∀ package, after.modules.get? package =
        if package = folder.package ++ "." ++ name then some other
        else before.modules.get? package := by
  cases known : folder.members.get? name with
  | some entity =>
    cases (coherent.standing number folder name entity loaded known).2 with
    | @folder _ _ other _ module =>
      refine ⟨other, before, memberOfFolder_of_known loaded free known, ?_⟩
      intro package
      split
      · rename_i same
        rw [same, module]
      · rfl
    | definition other => cases leads.symm.trans other
  | none =>
    obtain ⟨other, after, isLoaded, modules⟩ := load_of_folder leads
    rw [memberOfFolder_of_new loaded free known, loadMember_of_entity isLoaded]
    exact ⟨other, _, rfl, modules⟩

theorem memberOfFolder_of_read {definition : Definition}
    (leads : before.target (folder.package ++ "." ++ name) = .file reading)
    (read : reading.result = .ok definition) :
    ∃ index after, memberOfFolder number name before = (.ok (.entity (.definition index)), after) ∧
      after.definition? index = some definition ∧ after.modules = before.modules := by
  cases known : folder.members.get? name with
  | some entity =>
    obtain ⟨index, rfl, isKnown⟩ := definition_of_member coherent loaded known leads read
    exact ⟨index, before, memberOfFolder_of_known loaded free known, isKnown, rfl⟩
  | none =>
    rw [memberOfFolder_of_new loaded free known, loadMember_of_entity (load_of_ok leads read)]
    exact ⟨_, _, rfl, List.getElem?_concat_length, rfl⟩

theorem memberOfFolder_of_failed {fault : Fault}
    (leads : before.target (folder.package ++ "." ++ name) = .file reading)
    (failed : reading.result = .error fault) :
    ∃ after, memberOfFolder number name before = (.error fault, after) := by
  cases known : folder.members.get? name with
  | some entity =>
    cases (coherent.standing number folder name entity loaded known).2 with
    | folder other => cases leads.symm.trans other
    | definition other isRead =>
      cases leads.symm.trans other
      cases failed.symm.trans isRead
  | none =>
    rw [memberOfFolder_of_new loaded free known, loadMember_of_error (load_of_error leads failed)]
    exact ⟨_, rfl⟩

end

variable {found members : List (Text × Value)}

theorem any_eq_true_iff_mem_keys : found.any (·.1 == name) ↔ name ∈ found.map Prod.fst := by
  rw [List.any_eq_true, List.mem_map]
  constructor
  · rintro ⟨entry, member, same⟩
    exact ⟨entry, member, eq_of_beq same⟩
  · rintro ⟨entry, member, rfl⟩
    exact ⟨entry, member, beq_self_eq_true _⟩

theorem collectMembers_of_seen (seen : found.any (·.1 == name)) (names : List Text) :
    collectMembers number found (name :: names) = collectMembers number found names := by
  rw [collectMembers, if_pos seen]

theorem collectMembers_of_new (new : ¬found.any (·.1 == name)) (notList : name ≠ "__all__".toList)
    (names : List Text) :
    collectMembers number found (name :: names) = (do
      let value ← memberOfFolder number name
      collectMembers number (if value.isPresent then found ++ [(name, value)] else found)
        names) := by
  rw [collectMembers, if_neg new, if_neg (by simpa using notList)]

theorem collectMembers_of_list (new : ¬found.any (·.1 == name)) (isList : name = "__all__".toList)
    (names : List Text) :
    collectMembers number found (name :: names) before = (.error .circularListing, before) := by
  rw [collectMembers, if_neg new, if_pos (by simpa using isList)]
  rfl

open List in
/-- Each name is collected once. -/
theorem names_of_collectMembers {names : List Text} (distinct : (found.map Prod.fst).Nodup)
    (collected : collectMembers number found names before = (.ok members, after)) :
    (members.map Prod.fst).Nodup ∧ members.map Prod.fst ⊆ found.map Prod.fst ++ names := by
  induction names generalizing found before with
  | nil =>
    cases collected
    exact ⟨distinct, fun _ member => mem_append_left _ member⟩
  | cons name names ih =>
    have wider : found.map Prod.fst ++ names ⊆ found.map Prod.fst ++ name :: names :=
      append_subset.mpr ⟨subset_append_left _ _,
        Subset.trans (subset_cons_self _ _) (subset_append_right _ _)⟩
    by_cases seen : found.any (·.1 == name)
    · rw [collectMembers_of_seen seen] at collected
      obtain ⟨nodup, within⟩ := ih distinct collected
      exact ⟨nodup, Subset.trans within wider⟩
    by_cases isList : name = "__all__".toList
    · rw [collectMembers_of_list seen isList] at collected
      cases collected
    rw [collectMembers_of_new seen isList] at collected
    obtain ⟨value, middle, _, collected⟩ := Loads.ok_of_bind collected
    split at collected
    · have new : name ∉ found.map Prod.fst :=
        fun member => seen (any_eq_true_iff_mem_keys.mpr member)
      have still : ((found ++ [(name, value)]).map Prod.fst).Nodup := by
        rw [map_append]
        exact distinct.append (nodup_singleton name) (disjoint_singleton.mpr new)
      obtain ⟨nodup, within⟩ := ih still collected
      rw [map_append, append_assoc] at within
      exact ⟨nodup, within⟩
    · obtain ⟨nodup, within⟩ := ih distinct collected
      exact ⟨nodup, Subset.trans within wider⟩

section

variable (loaded : before.folder? number = some folder)
include loaded

theorem membersOfFolder_eq (isFolder : before.tree.isFolder folder.path) :
    membersOfFolder number before = (do
      let found ← collectMembers number []
        ((before.tree.list folder.path).filterMap (memberName? before.tree folder.path))
      return found.mergeSort fun a b => SourceTree.nameLe a.1 b.1) before := by
  rw [membersOfFolder, Loads.get_bind, loaded]
  dsimp only
  rw [isFolder]
  rfl

theorem isFolder_of_membersOfFolder
    (listed : membersOfFolder number before = (.ok members, after)) :
    before.tree.isFolder folder.path := by
  rw [membersOfFolder, Loads.get_bind, loaded] at listed
  dsimp only at listed
  cases isFolder : before.tree.isFolder folder.path with
  | true => rfl
  | false =>
    rw [isFolder] at listed
    cases listed

theorem Coherent.isFolder (coherent : before.Coherent) : before.tree.isFolder folder.path :=
  (path_of_target (coherent.placed number folder loaded)).2.2

end

end

end MatlabDocs.Catalog
