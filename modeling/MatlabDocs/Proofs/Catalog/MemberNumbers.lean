import MatlabDocs.Proofs.Catalog.Coherence

/-!
# Numbers of members

The analysis of a module numbers its members by name, and behind each class the members of the
class: its properties, and then those of its methods that do not stand for a property.  No number
is left out and none is given twice, since the names of files and folders have no dots.
-/

namespace MatlabDocs

open List

private theorem SourceTree.nameLe_iff {a b : Text} : nameLe a b ↔ a ≤ b := by
  simp [nameLe]

/-- Items with different names are in strict order once they are sorted. -/
theorem SourceTree.pairwise_mergeSort_name {α : Type} {items : List (Text × α)}
    (distinct : (items.map Prod.fst).Nodup) :
    (items.mergeSort fun a b => nameLe a.1 b.1).Pairwise fun a b => a.1 < b.1 := by
  have different := pairwise_map.mp
    (((mergeSort_perm items fun a b => nameLe a.1 b.1).map Prod.fst).nodup_iff.mpr distinct)
  have le := @pairwise_mergeSort (Text × α) (fun a b => nameLe a.1 b.1)
    (fun a b c first second => nameLe_iff.mpr
      ((nameLe_iff.mp first).trans (nameLe_iff.mp second)))
    (fun a b => by
      rw [Bool.or_eq_true, nameLe_iff, nameLe_iff]
      exact le_total _ _) items
  exact (le.and different).imp fun both => lt_of_le_of_ne (nameLe_iff.mp both.1) both.2

/-- The members of a class, each once: its properties, and the methods behind them. -/
def ClassDef.memberNames (definition : ClassDef) : List Text :=
  (definition.properties.keys ++ definition.methods.keys).eraseDups

def ClassDef.memberValue (definition : ClassDef) (number : Nat) (name : Text) : Value :=
  if definition.methods.contains name then .entity (.method number name)
  else .entity (.property number name)

namespace Catalog

variable {definition : ClassDef} {number : Nat}

private theorem mapM_propertyOf {entries : List (Text × PropertyDef)} {found : List (Text × Value)}
    (run : (entries.mapM fun (name, property) => do
      return (name, ← propertyOf number name property) : Except Fault _) = .ok found) :
    found = (entries.map Prod.fst).map fun name => (name, .entity (.property number name)) := by
  induction entries generalizing found with
  | nil =>
    cases run
    rfl
  | cons entry entries ih =>
    rw [mapM_cons] at run
    obtain ⟨pair, named, run⟩ := Loads.ok_of_except run
    obtain ⟨value, first, isPair⟩ := Loads.ok_of_except named
    obtain ⟨others, rest, isFound⟩ := Loads.ok_of_except run
    cases isPair
    cases isFound
    rcases propertyOf_cases number entry.1 entry.2 with ⟨part, failed⟩ | ⟨_, _, isEntity⟩
    · cases failed.symm.trans first
    · cases isEntity.symm.trans first
      rw [ih rest, map_cons, map_cons]

/-- A method that has the name of a property takes its place. -/
theorem entries_membersOfClass {table : NameTable Value}
    (run : membersOfClass number definition = .ok table) :
    table.entries =
      definition.memberNames.map fun name => (name, definition.memberValue number name) := by
  rw [membersOfClass] at run
  obtain ⟨found, read, isTable⟩ := Loads.ok_of_except run
  cases isTable
  rw [mapM_propertyOf read, Table.entries_insertAll_map]
  refine map_congr_left fun name _ => Prod.ext rfl ?_
  simp only [ClassDef.memberValue, Table.contains_iff]

end Catalog

/-- A member with its docstring, as it stands in the tables of an analysis. -/
structure DocumentedMember where
  space : Text
  name : Text
  tag : Text
  docstring : Value

namespace DocumentedMember

def key (member : DocumentedMember) : Text × Text :=
  (member.space, member.name)

/-- A member of a class in a module. -/
def ofClass (catalog : Catalog) (package owner : Text) (value : Text → Value) (name : Text) :
    DocumentedMember where
  space := package ++ "." ++ owner
  name
  tag := owner ++ "." ++ name
  docstring := .ofText? (catalog.docstringOf (value name))

/-- What the members of a class add, if it is one. -/
def ofMembers (catalog : Catalog) (package : Text) (member : Text × Value) :
    List DocumentedMember :=
  match catalog.classOf? member.2 with
  | some (number, definition) =>
    definition.memberNames.map (ofClass catalog package member.1 (definition.memberValue number))
  | none => []

/-- What a member of a module adds: itself, if it has a docstring, and its own members. -/
def ofMember (catalog : Catalog) (package : Text) (member : Text × Value) :
    List DocumentedMember :=
  ((catalog.docstringPart? member.2).map fun docstring =>
    ⟨package, member.1, member.1, docstring⟩).toList ++ ofMembers catalog package member

end DocumentedMember

namespace MemberDocs

variable {catalog : Catalog} {package : Text} {docs added : MemberDocs}

def addRow (docs : MemberDocs) (row : DocumentedMember) : MemberDocs :=
  docs.add row.space row.name row.tag row.docstring

private theorem addMember_of_ok {member : Text × Value}
    (run : addMember catalog package docs member = .ok added) :
    added = (DocumentedMember.ofMember catalog package member).foldl addRow docs := by
  have own : docs.addOwn catalog package member.1 member.2 =
      ((catalog.docstringPart? member.2).map fun docstring =>
        ⟨package, member.1, member.1, docstring⟩).toList.foldl addRow docs := by
    rw [addOwn]
    cases catalog.docstringPart? member.2 <;> rfl
  rw [DocumentedMember.ofMember, foldl_append, ← own, DocumentedMember.ofMembers]
  rw [addMember] at run
  cases known : catalog.classOf? member.2 with
  | none =>
    rw [known] at run
    cases run
    rfl
  | some owner =>
    rw [known] at run
    dsimp only at run ⊢
    rw [addClass] at run
    obtain ⟨table, listed, run⟩ := Loads.ok_of_except run
    cases run
    rw [foldl_map, Catalog.entries_membersOfClass listed, foldl_map]
    rfl

theorem ofMembers_of_ok {members : List (Text × Value)}
    (run : ofMembers catalog package members = .ok added) :
    added = (members.flatMap (DocumentedMember.ofMember catalog package)).foldl addRow {} := by
  rw [ofMembers] at run
  generalize ({} : MemberDocs) = docs at run ⊢
  induction members generalizing docs with
  | nil =>
    cases run
    rfl
  | cons member members ih =>
    rw [foldlM_cons] at run
    obtain ⟨next, first, run⟩ := Loads.ok_of_except run
    rw [flatMap_cons, foldl_append, ← addMember_of_ok first]
    exact ih next run

/-- Members that are added one by one get the next numbers. -/
theorem foldl_addRow (rows : List DocumentedMember) (docs : MemberDocs) :
    rows.foldl addRow docs =
      { docstrings := docs.docstrings.insertAll (rows.map fun row => (row.key, row.docstring))
        order := docs.order.insertAll ((rows.map DocumentedMember.tag).zipIdx docs.found)
        found := docs.found + rows.length } := by
  induction rows generalizing docs with
  | nil => rfl
  | cons row rows ih =>
    rw [foldl_cons, ih, length_cons, Nat.add_comm rows.length 1, ← Nat.add_assoc]
    rfl

end MemberDocs

namespace DocumentedMember

variable {catalog : Catalog} {package : Text} {member : Text × Value}

/-- The tag that belongs to a key in the analysis of a module. -/
def tagOf (package : Text) (key : Text × Text) : Text :=
  if key.1 = package then key.2 else key.1.drop (package.length + 1) ++ "." ++ key.2

theorem tag_cases {row : DocumentedMember} (isRow : row ∈ ofMember catalog package member) :
    (row.tag = member.1 ∨ ∃ name, row.tag = member.1 ++ '.' :: name) ∧
      tagOf package row.key = row.tag := by
  rcases mem_append.mp isRow with isOwn | isRow
  · obtain ⟨docstring, _, rfl⟩ := Option.map_eq_some_iff.mp (Option.mem_toList.mp isOwn)
    exact ⟨.inl rfl, if_pos rfl⟩
  · rw [ofMembers] at isRow
    split at isRow
    · obtain ⟨own, _, rfl⟩ := mem_map.mp isRow
      have longer : package ++ "." ++ member.1 ≠ package := by simp
      refine ⟨.inr ⟨own, append_assoc _ _ _⟩, (if_neg longer).trans ?_⟩
      simp [ofClass, key, drop_append]
    · cases isRow

private theorem nodup_tags_ofMember (catalog : Catalog) (package : Text) (member : Text × Value) :
    ((ofMember catalog package member).map tag).Nodup := by
  have nodup : ((ofMembers catalog package member).map tag).Nodup := by
    rw [ofMembers]
    split
    · rw [map_map]
      exact (Table.nodup_eraseDups _).map fun _ _ same => append_cancel_left same
    · exact nodup_nil
  have new : member.1 ∉ (ofMembers catalog package member).map tag := by
    rw [ofMembers]
    split
    · simp [ofClass]
    · exact not_mem_nil
  rw [ofMember]
  cases catalog.docstringPart? member.2 with
  | none => exact nodup
  | some docstring => exact nodup_cons.mpr ⟨new, nodup⟩

/-- Without dots in it, the name of a member of the module is what stands in front of the first
dot of a tag.  So members with different names have no tag in common. -/
theorem nodup_tags {members : List (Text × Value)}
    (inOrder : members.Pairwise fun a b => a.1 < b.1) (plain : ∀ member ∈ members, '.' ∉ member.1) :
    ((members.flatMap (ofMember catalog package)).map tag).Nodup := by
  have front : ∀ member ∈ members, ∀ text ∈ (ofMember catalog package member).map tag,
      text.takeWhile (· != '.') = member.1 := by
    intro member isMember text isTag
    obtain ⟨row, isRow, rfl⟩ := mem_map.mp isTag
    have whole : ∀ c ∈ member.1, c != '.' := fun c inName => by
      simpa using fun same : c = '.' => plain member isMember (same ▸ inName)
    rcases (tag_cases isRow).1 with isTag | ⟨name, isTag⟩
    · rw [isTag, takeWhile_eq_self_iff.mpr whole]
    · rw [isTag, takeWhile_append_of_pos whole]
      simp
  rw [map_flatMap, nodup_flatMap]
  refine ⟨fun member _ => nodup_tags_ofMember catalog package member, ?_⟩
  refine inOrder.imp_of_mem fun {a b} isFirst isSecond less text first second => ?_
  exact absurd ((front a isFirst text first).symm.trans (front b isSecond text second)) less.ne

theorem nodup_keys {rows : List DocumentedMember}
    (tagged : ∀ row ∈ rows, tagOf package row.key = row.tag) (nodup : (rows.map tag).Nodup) :
    (rows.map key).Nodup := by
  refine .of_map (tagOf package) ?_
  rw [map_map]
  exact map_congr_left tagged ▸ nodup

end DocumentedMember

namespace Catalog

variable {before after : Catalog} {number : Nat} {folder : Folder} {members : List (Text × Value)}

theorem members_by_name (loaded : before.folder? number = some folder)
    (listed : membersOfFolder number before = (.ok members, after)) :
    members.Pairwise (fun a b => a.1 < b.1) ∧ ∀ member ∈ members,
      ∃ entry ∈ before.tree.list folder.path,
        memberName? before.tree folder.path entry = some member.1 := by
  rw [membersOfFolder_eq loaded (isFolder_of_membersOfFolder loaded listed)] at listed
  obtain ⟨found, middle, given, isLast⟩ := Loads.ok_of_bind listed
  cases isLast
  obtain ⟨nodup, within⟩ := names_of_collectMembers (by exact nodup_nil) given
  refine ⟨SourceTree.pairwise_mergeSort_name nodup, fun member isMember => ?_⟩
  have isFound := (mergeSort_perm found _).mem_iff.mp isMember
  exact mem_filterMap.mp (within (mem_map_of_mem isFound))

/-- The name has no dot, apart from the one in front of the extension of a source file. -/
def IsPlainEntry (tree : SourceTree) (path entry : Text) : Prop :=
  '.' ∉ entry ∨ tree.isFolder (Path.join path entry) = false ∧
    ∃ stem, stem ≠ [] ∧ '.' ∉ stem ∧ entry = stem ++ ".m"

theorem IsPlainEntry.dot_not_mem {tree : SourceTree} {path entry name : Text}
    (plain : IsPlainEntry tree path entry) (isName : memberName? tree path entry = some name) :
    '.' ∉ name := by
  unfold memberName? at isName
  dsimp only at isName
  rcases plain with plain | ⟨isFile, stem, notEmpty, plain, rfl⟩
  · split at isName
    · split at isName
      · cases isName
      · cases isName
        exact plain
    · split at isName
      · rename_i isSource
        exact absurd ((isSuffixOf_iff_suffix.mp isSource).subset (by decide)) plain
      · cases isName
  · rw [isFile, if_neg Bool.false_ne_true] at isName
    split at isName
    · have isStem : Path.stem (stem ++ ".m") = stem :=
        Path.stem_append notEmpty plain (by decide)
      rw [isStem] at isName
      cases isName
      exact plain
    · cases isName

private theorem listed_of_memberDocs {path module : Text} {docs : MemberDocs}
    (fresh : before.analyses.get? path = some { module })
    (registered : before.modules.get? module = some number)
    (run : memberDocs path before = (.ok docs, after)) :
    ∃ members middle, membersOfFolder number before = (.ok members, middle) ∧
      MemberDocs.ofMembers middle module members = .ok docs ∧
      after = middle.withDocs path { module } docs := by
  rw [memberDocs, Loads.get_bind, fresh] at run
  dsimp only at run
  rw [Loads.get_bind, registered] at run
  obtain ⟨members, middle, listed, run⟩ := Loads.ok_of_bind run
  rw [Loads.get_bind] at run
  obtain ⟨collected, last, isCollected, run⟩ := Loads.ok_of_bind run
  refine ⟨members, middle, listed, ?_⟩
  cases outcome : MemberDocs.ofMembers middle module members with
  | error fault =>
    rw [outcome] at isCollected
    cases isCollected
  | ok docs =>
    rw [outcome] at isCollected
    cases isCollected
    cases run
    exact ⟨rfl, rfl⟩

/-- When the members of a module are collected for the first time, the members with docstrings
come by name, each in front of its own members, and these are the numbers they get; the docstrings
stand in the same order.  From then on the same is answered. -/
theorem members_numbered_without_gaps (path module : Text) (number : Nat) (folder : Folder)
    (before after : Catalog) (docs : MemberDocs)
    (fresh : before.analyses.get? path = some { module })
    (registered : before.modules.get? module = some number)
    (loaded : before.folder? number = some folder)
    (plain : ∀ entry ∈ before.tree.list folder.path, IsPlainEntry before.tree folder.path entry)
    (run : memberDocs path before = (.ok docs, after)) :
    ∃ members middle, membersOfFolder number before = (.ok members, middle) ∧
      members.Pairwise (fun a b => a.1 < b.1) ∧ memberDocs path after = (.ok docs, after) ∧
      let rows := members.flatMap (DocumentedMember.ofMember after module)
      docs.order.entries = (rows.map fun row => row.tag).zipIdx ∧
        docs.docstrings.entries = rows.map (fun row => (row.key, row.docstring)) ∧
        docs.found = rows.length := by
  obtain ⟨members, middle, listed, collected, rfl⟩ := listed_of_memberDocs fresh registered run
  obtain ⟨inOrder, named⟩ := members_by_name loaded listed
  have plainNames : ∀ member ∈ members, '.' ∉ member.1 := by
    intro member isMember
    obtain ⟨entry, isEntry, isName⟩ := named member isMember
    exact (plain entry isEntry).dot_not_mem isName
  have tags := @DocumentedMember.nodup_tags middle module members inOrder plainNames
  have keys := DocumentedMember.nodup_keys (fun row isRow => by
    obtain ⟨member, _, isRow⟩ := mem_flatMap.mp isRow
    exact (DocumentedMember.tag_cases isRow).2) tags
  have isDocs := MemberDocs.ofMembers_of_ok collected
  rw [MemberDocs.foldl_addRow] at isDocs
  refine ⟨members, middle, listed, inOrder, ?_, ?_, ?_, ?_⟩
  · have known : (middle.withDocs path { module } docs).analyses.get? path =
        some { module, docs := some docs } := (Table.get?_insert _ _ _ _).trans (if_pos rfl)
    rw [memberDocs, Loads.get_bind, known]
    rfl
  · rw [isDocs]
    exact Table.entries_ofList (by rwa [zipIdx_map_fst])
  · rw [isDocs]
    exact Table.entries_ofList (by rwa [map_map])
  · rw [isDocs]
    exact Nat.zero_add _

/-- A class with a property that a method takes the place of. -/
def tankTree : SourceTree where
  folders := [["src"], ["src", "geo"]]
  files := ⟨[(["src", "geo", "Tank.m"], .source
    ("classdef Tank\nproperties\nlevel\nfill\nend\nmethods\nfunction fill(tank)\nend\n" ++
      "function drain(tank)\nend\nend\nend\n").toUTF8.toList)]⟩

theorem members_numbered_without_gaps_tankTree :
    let before := (analysisPath "geo" (({ tree := tankTree, root := "src" } : Catalog).after
      [.load "geo"])).2
    ∃ docs after, memberDocs "src/geo" before = (.ok docs, after) ∧
      docs.order.keys = ["Tank".toList, "Tank.level".toList, "Tank.fill".toList,
        "Tank.drain".toList] ∧
      memberDocs "src/geo" after = (.ok docs, after) := by
  intro before
  have tags : (memberDocs "src/geo" before).1.toOption.map (·.order.keys) =
      some ["Tank".toList, "Tank.level".toList, "Tank.fill".toList, "Tank.drain".toList] := by
    decide +kernel
  have entries : tankTree.list "src/geo" = ["Tank.m".toList] := by decide +kernel
  rcases run : memberDocs "src/geo" before with ⟨fault | docs, after⟩
  · rw [run] at tags
    cases tags
  · rw [run] at tags
    have plain : ∀ entry ∈ tankTree.list "src/geo", IsPlainEntry tankTree "src/geo" entry := by
      rw [entries]
      exact forall_mem_singleton.mpr (.inr ⟨by decide, "Tank", by decide, by decide, rfl⟩)
    obtain ⟨_, _, _, _, again, _⟩ := members_numbered_without_gaps "src/geo" "geo" 0
      ⟨"geo", "src/geo", "geo", {}⟩ before after docs rfl rfl rfl plain run
    exact ⟨docs, after, rfl, Option.some.inj tags, again⟩

end Catalog

end MatlabDocs
