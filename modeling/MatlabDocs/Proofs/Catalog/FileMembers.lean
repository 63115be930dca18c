import MatlabDocs.Proofs.Catalog.Coherence
import MatlabDocs.Proofs.Text.Identifier

/-!
# The files of a folder as its members

A source file is reached as the member of its folder that has its name, and it is listed once
among all members, whatever has been looked up before.  Only the names that every folder has for
itself are taken.
-/

namespace MatlabDocs.Catalog

open List MatlabDocs.Path SourceTree

section

variable {catalog : Catalog} {package last path name : Text}

theorem path_of_member (leads : catalog.target package = .folder last path) (plain : '.' ∉ name) :
    Path.join catalog.root (Path.ofDotted (package ++ "." ++ name)) = path ++ '/' :: name := by
  obtain ⟨notEmpty, isPath, _⟩ := path_of_target leads
  have relativeNotEmpty : ofDotted package ≠ [] := by simpa [ofDotted] using notEmpty
  rw [ofDotted_append, ofDotted_of_not_mem plain,
    join_append relativeNotEmpty, ← isPath]

def pathBelow (package : Text) : Text :=
  (Path.split (Path.ofDotted package ++ "/")).1

theorem isName_withExtension (isName : Path.IsName name) : Path.IsName (name ++ ".m") := by
  constructor
  · simp
  · simpa using isName.plain
  · intro same
    have lengths := congrArg length same
    simp at lengths
  · intro same
    have lengths := congrArg length same
    simp at lengths
    exact isName.ne_nil lengths

theorem target_of_file {file : SourceFile} (leads : catalog.target package = .folder last path)
    (isName : Path.IsName name) (plain : '.' ∉ name)
    (isFile : catalog.tree.file? (Path.join path (name ++ ".m")) = some file)
    (noFolder : catalog.tree.isFolder (Path.join path name) = false) :
    catalog.target (package ++ "." ++ name) =
      .file (Definition.ofBytes name (pathBelow package) catalog.encoding file.bytes) := by
  obtain ⟨place, placed⟩ := exists_place? (path_of_target leads).2.2
  have fileName := isName_withExtension isName
  have notFolder : ¬catalog.tree.isFolder (path ++ '/' :: name) := by
    have same : catalog.tree.place? (path ++ '/' :: name) = catalog.tree.place? (join path name) :=
      (place?_append placed isName).trans (place?_join placed isName).symm
    rw [isFolder, same, ← isFolder, noFolder]
    exact Bool.false_ne_true
  have found : catalog.tree.file? (path ++ '/' :: name ++ ".m") = some file := by
    rw [append_assoc, cons_append, file?_of_place?
      (place?_append placed fileName), ← file?_of_place?
      (place?_join placed fileName), isFile]
  have parts := split_append (ofDotted package) isName.plain
  rw [target_eq (by simp), path_of_member leads plain, if_neg notFolder, found,
    ofDotted_append, ofDotted_of_not_mem plain, parts.1, parts.2]
  rfl

end

section

variable {before after : Catalog} {number : Nat} {folder : Folder} {name : Text}
  (coherent : before.Coherent) (loaded : before.folder? number = some folder)

/-- What the folder is asked for can be told, unless it has to be read from a file and the reading
fails. -/
def Answers (catalog : Catalog) (package name : Text) : Prop :=
  name ∈ ownNames ∨
    ∀ reading, catalog.target (package ++ "." ++ name) = .file reading → reading.result.isOk

include loaded in
theorem memberOfFolder_of_ownName (own : name ∈ ownNames) :
    ∃ value, value.isEntity = false ∧ memberOfFolder number name before = (.ok value, before) := by
  cases part : (before.ownParts number folder).lookup name with
  | none => exact absurd own ((lookup_ownParts_eq_none_iff before number folder).mp part)
  | some value =>
    refine ⟨value, ?_, memberOfFolder_of_own loaded part⟩
    cases value with
    | entity entity => exact absurd rfl (ownParts_ne_entity part)
    | _ => rfl

include coherent loaded

/-- What a folder answers under a name that is not its own: nothing where the name leads nowhere,
a member, or the fault of the file that it leads to. -/
theorem memberOfFolder_cases (free : name ∉ ownNames) :
    (before.target (folder.package ++ "." ++ name) = .nothing ∧
      memberOfFolder number name before = (.ok .nothing, before)) ∨
    ∃ after, (before.Answers folder.package name ∧
        ∃ entity, memberOfFolder number name before = (.ok (.entity entity), after)) ∨
      ∃ fault, ¬before.Answers folder.package name ∧
        memberOfFolder number name before = (.error fault, after) := by
  cases leads : before.target (folder.package ++ "." ++ name) with
  | nothing => exact .inl ⟨rfl, memberOfFolder_of_nothing coherent loaded free leads⟩
  | folder last path =>
    obtain ⟨other, after, asked, _⟩ := memberOfFolder_of_folder coherent loaded free leads
    have answers : before.Answers folder.package name :=
      .inr fun reading isFile => by cases leads.symm.trans isFile
    exact .inr ⟨after, .inl ⟨answers, _, asked⟩⟩
  | file reading =>
    cases result : reading.result with
    | ok definition =>
      obtain ⟨index, after, asked, _⟩ := memberOfFolder_of_read coherent loaded free leads result
      refine .inr ⟨after, .inl ⟨.inr fun other isFile => ?_, _, asked⟩⟩
      cases leads.symm.trans isFile
      rw [result]
      rfl
    | error fault =>
      obtain ⟨after, asked⟩ := memberOfFolder_of_failed coherent loaded free leads result
      refine .inr ⟨after, .inr ⟨fault, ?_, asked⟩⟩
      rintro (own | isRead)
      · exact free own
      · have isOk := isRead reading leads
        rw [result] at isOk
        cases isOk

theorem memberOfFolder_isOk_iff :
    (memberOfFolder number name before).1.isOk ↔ before.Answers folder.package name := by
  by_cases free : name ∈ ownNames
  · obtain ⟨value, _, asked⟩ := memberOfFolder_of_ownName loaded free
    rw [asked]
    exact iff_of_true rfl (.inl free)
  · rcases memberOfFolder_cases coherent loaded free with
      ⟨leads, asked⟩ | ⟨after, ⟨answers, entity, asked⟩ | ⟨fault, silent, asked⟩⟩
    · rw [asked]
      exact iff_of_true rfl (.inr fun reading isFile => by cases leads.symm.trans isFile)
    · rw [asked]
      exact iff_of_true rfl answers
    · rw [asked]
      exact iff_of_false Bool.false_ne_true silent

theorem value_of_memberOfFolder {value : Value} (free : name ∉ ownNames)
    (asked : memberOfFolder number name before = (.ok value, after)) :
    (∃ entity, value = .entity entity) ∨
      (value = .nothing ∧ before.target (folder.package ++ "." ++ name) = .nothing) := by
  rcases memberOfFolder_cases coherent loaded free with
    ⟨leads, answered⟩ | ⟨_, ⟨_, entity, answered⟩ | ⟨_, _, answered⟩⟩
  · cases answered.symm.trans asked
    exact .inr ⟨rfl, leads⟩
  · cases answered.symm.trans asked
    exact .inl ⟨entity, rfl⟩
  · cases answered.symm.trans asked

end

section

variable {before after : Catalog} {number : Nat} {folder : Folder} {name : Text}
  {found members : List (Text × Value)} {value : Value}

theorem any_append_present (other : Text) :
    (if value.isPresent then found ++ [(name, value)] else found).any (·.1 == other) →
      found.any (·.1 == other) ∨ other = name := by
  intro seen
  split at seen
  · rw [any_append, Bool.or_eq_true] at seen
    rcases seen with old | isNew
    · exact .inl old
    · have same : name = other := by simpa using isNew
      exact .inr same.symm
  · exact .inl seen

/-- Members as they have been collected: under a name that is not the folder's own what the folder
remembers. -/
def Listing (catalog : Catalog) (number : Nat) (found : List (Text × Value)) : Prop :=
  ∀ name value, (name, value) ∈ found → name ∉ ownNames →
    ∃ entity folder, value = .entity entity ∧ catalog.folder? number = some folder ∧
      folder.members.get? name = some entity

theorem Listing.of_grows (listing : before.Listing number found) (grows : before.Grows after) :
    after.Listing number found := by
  intro name value member free
  obtain ⟨entity, folder, isEntity, loaded, known⟩ := listing name value member free
  obtain ⟨grown, isGrown, growsFolder⟩ := grows.folders number folder loaded
  exact ⟨entity, grown, isEntity, isGrown, growsFolder.members name entity known⟩

variable (coherent : before.Coherent) (loaded : before.folder? number = some folder)
include coherent loaded

theorem collectMembers_isOk_iff (found : List (Text × Value)) (names : List Text) :
    (collectMembers number found names before).1.isOk ↔
      ∀ name ∈ names, found.any (·.1 == name) ∨
        (name ≠ "__all__".toList ∧ before.Answers folder.package name) := by
  induction names generalizing found before folder with
  | nil => exact iff_of_true rfl (fun _ none => absurd none not_mem_nil)
  | cons name names ih =>
    rw [forall_mem_cons]
    by_cases seen : found.any (·.1 == name)
    · rw [collectMembers_of_seen seen, ih coherent loaded]
      exact (and_iff_right (.inl seen)).symm
    by_cases isList : name = "__all__".toList
    · rw [collectMembers_of_list seen isList]
      refine iff_of_false Bool.false_ne_true ?_
      rintro ⟨old | ⟨notList, _⟩, _⟩
      · exact seen old
      · exact notList isList
    rw [collectMembers_of_new seen isList]
    have answers := @memberOfFolder_isOk_iff before number folder name coherent loaded
    rcases given : memberOfFolder number name before with ⟨fault | value, middle⟩
    · rw [Loads.bind_of_error given]
      rw [given] at answers
      refine iff_of_false Bool.false_ne_true ?_
      rintro ⟨old | ⟨_, answered⟩, _⟩
      · exact seen old
      · exact absurd (answers.mpr answered) Bool.false_ne_true
    · rw [given] at answers
      have answered := answers.mp rfl
      have reached := memberOfFolder_moves.reaches given
      obtain ⟨grown, isGrown, grows⟩ := reached.grows.folders number folder loaded
      rw [Loads.bind_of_ok given, ih (reached.coherent coherent) isGrown,
        and_iff_right (.inr ⟨isList, answered⟩)]
      apply forall₂_congr
      intro other _
      rw [grows.package_eq, Answers, Answers, reached.target_eq]
      constructor
      · rintro (known | good)
        · rcases any_append_present other known with old | rfl
          · exact .inl old
          · exact .inr ⟨isList, answered⟩
        · exact .inr good
      · rintro (old | good)
        · left
          split
          · rw [any_append, old, Bool.true_or]
          · exact old
        · exact .inr good

section

variable (listing : before.Listing number found)
include listing

theorem Listing.step (asked : memberOfFolder number name before = (.ok value, after)) :
    after.Listing number (if value.isPresent then found ++ [(name, value)] else found) := by
  have kept := listing.of_grows (memberOfFolder_moves.reaches asked).grows
  by_cases present : value.isPresent
  · rw [if_pos present]
    intro other answer member free
    rcases mem_append.mp member with old | isNew
    · exact kept other answer old free
    · cases mem_singleton.mp isNew
      rcases value_of_memberOfFolder coherent loaded free asked with ⟨entity, rfl⟩ | ⟨rfl, _⟩
      · obtain ⟨_, grown, isGrown, known⟩ := member_of_memberOfFolder asked
        exact ⟨entity, grown, rfl, isGrown, known⟩
      · cases present
  · rw [if_neg present]
    exact kept

theorem collectMembers_listing {names : List Text}
    (collected : collectMembers number found names before = (.ok members, after)) :
    after.Listing number members ∧ found <+: members ∧
      ∀ name ∈ names, name ∉ ownNames →
        before.target (folder.package ++ "." ++ name) ≠ .nothing → name ∈ members.map Prod.fst := by
  induction names generalizing found before folder with
  | nil =>
    cases collected
    exact ⟨listing, prefix_rfl, fun _ none => absurd none not_mem_nil⟩
  | cons name names ih =>
    by_cases seen : found.any (·.1 == name)
    · rw [collectMembers_of_seen seen] at collected
      obtain ⟨complete, grown, named⟩ := ih coherent loaded listing collected
      refine ⟨complete, grown, forall_mem_cons.mpr ⟨?_, named⟩⟩
      intro _ _
      exact (grown.map Prod.fst).subset (any_eq_true_iff_mem_keys.mp seen)
    by_cases isList : name = "__all__".toList
    · rw [collectMembers_of_list seen isList] at collected
      cases collected
    rw [collectMembers_of_new seen isList] at collected
    obtain ⟨value, middle, given, collected⟩ := Loads.ok_of_bind collected
    have reached := memberOfFolder_moves.reaches given
    obtain ⟨later, isLater, grows⟩ := reached.grows.folders number folder loaded
    have kept : found <+: if value.isPresent then found ++ [(name, value)] else found := by
      split
      · exact prefix_append _ _
      · exact prefix_rfl
    obtain ⟨complete, grown, named⟩ := ih (reached.coherent coherent) isLater
      (Listing.step coherent loaded listing given) collected
    refine ⟨complete, kept.trans grown, forall_mem_cons.mpr ⟨?_, ?_⟩⟩
    · intro free leads
      -- A name that leads somewhere is answered with an entity, and an entity is listed.
      have present : value.isPresent := by
        rcases value_of_memberOfFolder coherent loaded free given with ⟨_, rfl⟩ | ⟨_, nowhere⟩
        · rfl
        · exact absurd nowhere leads
      apply (grown.map Prod.fst).subset
      simp [present]
    · intro other member free leads
      apply named other member free
      rw [grows.package_eq, reached.target_eq]
      exact leads

end

theorem membersOfFolder_isOk_iff :
    (membersOfFolder number before).1.isOk ↔
      ∀ entry ∈ before.tree.list folder.path, ∀ name,
        memberName? before.tree folder.path entry = some name →
          name ≠ "__all__".toList ∧ before.Answers folder.package name := by
  have collects := collectMembers_isOk_iff coherent loaded []
    ((before.tree.list folder.path).filterMap (memberName? before.tree folder.path))
  have sameOutcome : (membersOfFolder number before).1.isOk =
      (collectMembers number []
        ((before.tree.list folder.path).filterMap (memberName? before.tree folder.path))
          before).1.isOk := by
    rw [membersOfFolder_eq loaded (coherent.isFolder loaded)]
    rcases given : collectMembers number []
      ((before.tree.list folder.path).filterMap (memberName? before.tree folder.path)) before with
      ⟨fault | found, after⟩
    · rw [Loads.bind_of_error given]
    · rw [Loads.bind_of_ok given]
      rfl
  rw [sameOutcome, collects]
  constructor
  · intro each entry member name isName
    rcases each name (mem_filterMap.mpr ⟨entry, member, isName⟩) with seen | good
    · cases seen
    · exact good
  · intro each name member
    obtain ⟨entry, isEntry, isName⟩ := mem_filterMap.mp member
    exact .inr (each entry isEntry name isName)

omit coherent loaded in
theorem filter_eq_singleton (nodup : (found.map Prod.fst).Nodup) (member : (name, value) ∈ found) :
    found.filter (·.1 == name) = [(name, value)] := by
  induction found with
  | nil => cases member
  | cons entry found ih =>
    obtain ⟨new, others⟩ := nodup_cons.mp nodup
    rcases mem_cons.mp member with rfl | later
    · rw [filter_cons_of_pos (by simp), filter_eq_nil_iff.mpr]
      intro other isOther same
      exact new (mem_map.mpr ⟨other, isOther, eq_of_beq same⟩)
    · rw [filter_cons_of_neg, ih others later]
      intro same
      exact new (mem_map.mpr ⟨(name, value), later, (eq_of_beq same).symm⟩)

/-- A name that leads anywhere is listed once, with what the folder remembers under it. -/
theorem filter_membersOfFolder {entry : Text} (isEntry : entry ∈ before.tree.list folder.path)
    (isName : memberName? before.tree folder.path entry = some name) (free : name ∉ ownNames)
    (leads : before.target (folder.package ++ "." ++ name) ≠ .nothing)
    (listed : membersOfFolder number before = (.ok members, after)) :
    ∃ entity folder, members.filter (·.1 == name) = [(name, .entity entity)] ∧
      after.folder? number = some folder ∧ folder.members.get? name = some entity := by
  rw [membersOfFolder_eq loaded (coherent.isFolder loaded)] at listed
  obtain ⟨found, middle, given, isLast⟩ := Loads.ok_of_bind listed
  cases isLast
  have start : before.Listing number [] := fun _ _ none => absurd none not_mem_nil
  obtain ⟨listing, _, named⟩ := collectMembers_listing coherent loaded start given
  have isListed := named name (mem_filterMap.mpr ⟨entry, isEntry, isName⟩) free leads
  obtain ⟨⟨other, value⟩, member, isOther⟩ := mem_map.mp isListed
  cases isOther
  obtain ⟨entity, later, rfl, isLater, known⟩ := listing other value member free
  refine ⟨entity, later, ?_, isLater, known⟩
  have sorted := (mergeSort_perm found fun a b => nameLe a.1 b.1).filter
    fun entry => entry.1 == other
  have nodup := (names_of_collectMembers (by exact nodup_nil) given).1
  rw [filter_eq_singleton nodup member] at sorted
  exact perm_singleton.mp sorted

theorem filter_membersOfFolder_of_read {reading : Reading Definition} {definition : Definition}
    {entry : Text} (isEntry : entry ∈ before.tree.list folder.path)
    (isName : memberName? before.tree folder.path entry = some name) (free : name ∉ ownNames)
    (leads : before.target (folder.package ++ "." ++ name) = .file reading)
    (read : reading.result = .ok definition)
    (listed : membersOfFolder number before = (.ok members, after)) :
    ∃ index, after.definition? index = some definition ∧
      members.filter (·.1 == name) = [(name, .entity (.definition index))] ∧
      memberOfFolder number name after = (.ok (.entity (.definition index)), after) := by
  have somewhere : before.target (folder.package ++ "." ++ name) ≠ .nothing := by
    rw [leads]
    exact Target.noConfusion
  obtain ⟨entity, later, once, isLater, known⟩ :=
    filter_membersOfFolder coherent loaded isEntry isName free somewhere listed
  have loading := membersOfFolder_moves.reaches listed
  obtain ⟨grown, isGrown, grows⟩ := loading.grows.folders number folder loaded
  cases isLater.symm.trans isGrown
  have leadsLater : after.target (later.package ++ "." ++ name) = .file reading := by
    rw [grows.package_eq, loading.target_eq, leads]
  obtain ⟨index, rfl, isKnown⟩ :=
    definition_of_member (loading.coherent coherent) isLater known leadsLater read
  exact ⟨index, isKnown, once, memberOfFolder_of_known isLater free known⟩

end

variable (name : Identifier)

theorem dot_not_mem : '.' ∉ name.text :=
  name.not_mem_of_not_isAsciiWord rfl

theorem isName_identifier : Path.IsName name.text where
  ne_nil := name.text_ne_nil
  plain := name.not_mem_of_not_isAsciiWord rfl
  ne_dot same := dot_not_mem name (by simp [same])
  ne_dots same := dot_not_mem name (by simp [same])

theorem memberName?_of_file {tree : SourceTree} {path : Text}
    (noFolder : tree.isFolder (Path.join path (name.text ++ ".m")) = false) :
    memberName? tree path (name.text ++ ".m") = some name.text := by
  have isSource : isSourceName (name.text ++ ".m") :=
    isSuffixOf_iff_suffix.mpr (suffix_append _ _)
  rw [memberName?, if_neg (Bool.eq_false_iff.mp noFolder), if_pos isSource]
  exact congrArg some (stem_append name.text_ne_nil (dot_not_mem name) (by decide))

/-- Whatever has been looked up before, a folder answers to the name of a source file in it with
the definition that is read from this file, or with the fault of its reading, unless the name is
one of its own.  The members can be listed if all of them can be read; the file is then listed
once, as what it is when it is asked for. -/
theorem files_are_members (tree : SourceTree) (root : Text) (encoding : Option Text)
    (forPages : Bool) (lookups : List Lookup) (number : Nat) (folder : Folder) (name : Identifier)
    (file : SourceFile) :
    let catalog := ({ tree, root, encoding, forPages } : Catalog).after lookups
    let fileName := name.text ++ ".m".toList
    let reading := Definition.ofBytes name.text (pathBelow folder.package) encoding file.bytes
    catalog.folder? number = some folder →
    tree.file? (Path.join folder.path fileName) = some file →
    tree.isFolder (Path.join folder.path fileName) = false →
    tree.isFolder (Path.join folder.path name.text) = false →
    name.text ≠ "__all__".toList →
    (name.text ∈ ownNames → ∃ value, value.isEntity = false ∧
      askFolder number name.text catalog = (.ok value, catalog)) ∧
    (name.text ∉ ownNames →
      (∀ fault, reading.result = .error fault →
        (askFolder number name.text catalog).1 = .error fault) ∧
      ((membersOfFolder number catalog).1.isOk ↔ ∀ entry ∈ tree.list folder.path, ∀ other,
        memberName? tree folder.path entry = some other →
          other ≠ "__all__".toList ∧ catalog.Answers folder.package other) ∧
      ∀ definition, reading.result = .ok definition →
        (∃ index next, next.definition? index = some definition ∧
          askFolder number name.text catalog = (.ok (.entity (.definition index)), next)) ∧
        ∀ members next, membersOfFolder number catalog = (.ok members, next) →
          ∃ index, next.definition? index = some definition ∧
            members.filter (·.1 == name.text) = [(name.text, .entity (.definition index))] ∧
            askFolder number name.text next = (.ok (.entity (.definition index)), next)) := by
  intro catalog fileName reading loaded isFile noFolder noSubfolder notList
  have reached := reaches_after { tree, root, encoding, forPages } lookups
  have coherent := coherent_after tree root encoding forPages lookups
  have sameTree : catalog.tree = tree := reached.settings_eq.1
  have isName := isName_identifier name
  have leadsFolder := coherent.placed number folder loaded
  have leads : catalog.target (folder.package ++ "." ++ name.text) = .file reading := by
    rw [reached.target_eq]
    rw [reached.target_eq] at leadsFolder
    exact target_of_file leadsFolder isName (dot_not_mem name) isFile noSubfolder
  rw [askFolder_of_ne notList]
  constructor
  · exact memberOfFolder_of_ownName loaded
  · intro free
    refine ⟨?_, ?_, ?_⟩
    · intro fault failed
      obtain ⟨after, asked⟩ := memberOfFolder_of_failed coherent loaded free leads failed
      rw [asked]
    · rw [membersOfFolder_isOk_iff coherent loaded, sameTree]
    · intro definition read
      constructor
      · obtain ⟨index, next, asked, isKnown, _⟩ :=
          memberOfFolder_of_read coherent loaded free leads read
        exact ⟨index, next, isKnown, asked⟩
      · intro members next listed
        obtain ⟨place, placed⟩ := exists_place? (path_of_target leadsFolder).2.2
        have isEntry : fileName ∈ catalog.tree.list folder.path :=
          mem_list_of_file? placed (isName_withExtension isName) (sameTree ▸ isFile)
        have isMember : memberName? catalog.tree folder.path fileName = some name.text := by
          rw [sameTree]
          exact memberName?_of_file name noFolder
        exact filter_membersOfFolder_of_read coherent loaded isEntry isMember free leads read listed

/-- In a folder with one file, the file is listed and asked for as the same definition. -/
theorem files_are_members_areaTree :
    let catalog := ({ tree := areaTree, root := "src" } : Catalog).after [.load "geo"]
    ∃ members next index definition, membersOfFolder 0 catalog = (.ok members, next) ∧
      (Definition.ofBytes "area" "geo" none "% Area".toUTF8.toList).result = .ok definition ∧
      next.definition? index = some definition ∧
      members.filter (·.1 == "area".toList) = [("area".toList, .entity (.definition index))] ∧
      askFolder 0 "area" next = (.ok (.entity (.definition index)), next) := by
  intro catalog
  have isRead : (Definition.ofBytes "area" "geo" none "% Area".toUTF8.toList).result.isOk := by
    decide +kernel
  have entries : areaTree.list "src/geo" = ["area.m".toList] := by decide +kernel
  obtain ⟨_, isListed, members⟩ := (files_are_members areaTree "src" none false [.load "geo"] 0
    ⟨"geo", "src/geo", "geo", {}⟩ ⟨"area", rfl⟩ (.source "% Area".toUTF8.toList) rfl rfl
    (by decide) (by decide) (by decide)).2 (by decide)
  have listable : (membersOfFolder 0 catalog).1.isOk := by
    apply isListed.mpr
    rw [entries]
    intro entry isEntry other isOther
    cases mem_singleton.mp isEntry
    cases isOther.symm.trans (memberName?_of_file ⟨"area", rfl⟩ (by decide))
    refine ⟨by decide, .inr ?_⟩
    intro reading leads
    cases leads.symm.trans (rfl : catalog.target "geo.area" =
      .file (Definition.ofBytes "area" "geo" none "% Area".toUTF8.toList))
    exact isRead
  cases read : (Definition.ofBytes "area" "geo" none "% Area".toUTF8.toList).result with
  | error fault =>
    rw [read] at isRead
    cases isRead
  | ok definition =>
    rcases listed : membersOfFolder 0 catalog with ⟨fault | found, next⟩
    · rw [listed] at listable
      cases listable
    · obtain ⟨index, isKnown, once, asked⟩ := (members definition read).2 found next listed
      exact ⟨found, next, index, definition, rfl, rfl, isKnown, once, asked⟩

/-- A file named like something that every folder says about itself cannot be asked for. -/
theorem file_named_path_is_hidden :
    let tree : SourceTree :=
      { folders := [["src"], ["src", "geo"]],
        files := ⟨[(["src", "geo", "path.m"], .source "% Path".toUTF8.toList)]⟩ }
    let catalog := ({ tree, root := "src" } : Catalog).after [.load "geo"]
    (∃ folder, catalog.folder? 0 = some folder ∧ (tree.file? (folder.path ++ "/path.m")).isSome ∧
      tree.isFolder (folder.path ++ "/path") = false) ∧
    askFolder 0 "path" catalog = (.ok (.text "src/geo"), catalog) := by
  refine ⟨⟨⟨"geo", "src/geo", "geo", {}⟩, rfl, ?_, ?_⟩, rfl⟩
  · decide
  · decide

end MatlabDocs.Catalog
