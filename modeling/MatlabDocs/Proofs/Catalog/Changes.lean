import MatlabDocs.Catalog.Analysis
import MatlabDocs.Catalog.Ask
import MatlabDocs.Proofs.Table
import Mathlib

/-!
# How the catalog changes

All that lookups do to the catalog is done in steps of five sorts: a definition is added, a
folder is entered under its dotted name, a folder remembers one more member, more notices are
given, or analyses are kept.  No later lookup of a member depends on the last two.  What holds
of the catalog after any lookups is shown for one step each.
-/

set_option mvcgen.warning false

namespace MatlabDocs

namespace Catalog

def ownNames : List Text :=
  (["__name__", "__doc__", "__module__", "__file__", "__path__", "__package__", "name", "path",
    "package", "basedir", "encoding", "sphinx_env", "sphinx_app", "__dict__", "__weakref__"] :
      List Text) ++ routineNames

/-- The entity is what the dotted name leads to. -/
inductive Stands (catalog : Catalog) (name : Text) : Entity → Prop where
  | folder {last path : Text} {number : Nat} :
      catalog.target name = .folder last path → catalog.modules.get? name = some number →
      Stands catalog name (.folder number)
  | definition {reading : Reading Definition} {definition : Definition} {number : Nat} :
      catalog.target name = .file reading → reading.result = .ok definition →
      catalog.definition? number = some definition → Stands catalog name (.definition number)

variable (catalog : Catalog)

def addDefinition (definition : Definition) : Catalog :=
  { catalog with definitions := catalog.definitions ++ [definition] }

def addFolder (package name path : Text) : Catalog :=
  { catalog with
    folders := catalog.folders ++ [{ name, path, package : Folder }]
    modules := catalog.modules.insert package catalog.folders.length }

/-- The docstrings of an analysis are collected from the members of its module. -/
def Collects (analysis : Analysis) : Prop :=
  ∀ docs, analysis.docs = some docs →
    ∃ members, MemberDocs.ofMembers catalog analysis.module members = .ok docs

/-- A folder that is analyzed for a module stays so. -/
def KeepsModules (analyses : NameTable Analysis) : Prop :=
  ∀ path analysis, catalog.analyses.get? path = some analysis →
    ∃ kept, analyses.get? path = some kept ∧ kept.module = analysis.module

/-- A step of loading.  A folder is only entered where it is not known yet, and a member is only
remembered under a name that stands for nothing else. -/
inductive Change : Catalog → Catalog → Prop where
  | notice {catalog : Catalog} (notices : List Notice) :
      Change catalog { catalog with notices := catalog.notices ++ notices }
  | analysis {catalog : Catalog} {analyses : NameTable Analysis}
      (analyzed : NameTable (Option Text)) :
      catalog.KeepsModules analyses →
      (∀ path analysis, analyses.get? path = some analysis →
        catalog.analyses.get? path = some analysis ∨ catalog.Collects analysis) →
      Change catalog { catalog with analyses, analyzed }
  | definition {catalog : Catalog} (definition : Definition) :
      Change catalog (catalog.addDefinition definition)
  | folder {catalog : Catalog} {package name path : Text} :
      catalog.target package = .folder name path → catalog.modules.get? package = none →
      Change catalog (catalog.addFolder package name path)
  | member {catalog : Catalog} {number : Nat} {folder : Folder} {name : Text} {entity : Entity} :
      catalog.folder? number = some folder → name ∉ ownNames →
      folder.members.get? name = none → catalog.Stands (folder.package ++ "." ++ name) entity →
      Change catalog (catalog.setMember number name entity)

abbrev Reaches : Catalog → Catalog → Prop :=
  Relation.ReflTransGen Change

@[grind .] theorem Reaches.refl {catalog : Catalog} : catalog.Reaches catalog :=
  Relation.ReflTransGen.refl

@[grind →] theorem Reaches.trans {before middle after : Catalog} (first : before.Reaches middle)
    (second : middle.Reaches after) : before.Reaches after :=
  Relation.ReflTransGen.trans first second

theorem KeepsModules.refl : catalog.KeepsModules catalog.analyses :=
  fun _ analysis known => ⟨analysis, known, rfl⟩

theorem KeepsModules.trans {before middle : Catalog} {analyses : NameTable Analysis}
    (first : before.KeepsModules middle.analyses) (second : middle.KeepsModules analyses) :
    before.KeepsModules analyses := by
  intro path analysis known
  obtain ⟨kept, isKept, sameModule⟩ := first path analysis known
  obtain ⟨last, isLast, stillSame⟩ := second path kept isKept
  exact ⟨last, isLast, stillSame.trans sameModule⟩

theorem Change.keepsModules {before after : Catalog} (change : Change before after) :
    before.KeepsModules after.analyses := by
  cases change with
  | notice notices => exact .refl before
  | analysis analyzed keeps _ => exact keeps
  | definition added => exact .refl before
  | folder leads new => exact .refl before
  | member loaded free new stands => exact .refl before

theorem Reaches.keepsModules {before after : Catalog} (reaches : before.Reaches after) :
    before.KeepsModules after.analyses := by
  induction reaches with
  | refl => exact .refl before
  | tail _ change ih => exact ih.trans change.keepsModules

end Catalog

namespace Loads

open Catalog Std.Do

variable {α β : Type}

theorem ok_of_except {result : Except Fault α} {next : α → Except Fault β} {value : β}
    (run : (result >>= next) = .ok value) :
    ∃ found, result = .ok found ∧ next found = .ok value := by
  cases result with
  | error fault => cases run
  | ok found => exact ⟨found, rfl, run⟩

section

variable {σ : Type} {action : ExceptT Fault (StateM σ) α} {next : α → ExceptT Fault (StateM σ) β}
  {before middle after : σ}

theorem bind_eq (action : ExceptT Fault (StateM σ) α) (next : α → ExceptT Fault (StateM σ) β)
    (before : σ) :
    (action >>= next) before = ExceptT.bindCont next (action before).1 (action before).2 :=
  rfl

theorem bind_of_ok {value : α} (given : action before = (.ok value, middle)) :
    (action >>= next) before = next value middle := by
  rw [bind_eq, given]
  rfl

theorem bind_of_error {fault : Fault} (given : action before = (.error fault, middle)) :
    (action >>= next) before = (.error fault, middle) := by
  rw [bind_eq, given]
  rfl

theorem ok_of_bind {result : β} (run : (action >>= next) before = (.ok result, after)) :
    ∃ value middle, action before = (.ok value, middle) ∧
      next value middle = (.ok result, after) := by
  rcases given : action before with ⟨fault | value, middle⟩
  · rw [bind_of_error given] at run
    cases run
  · rw [bind_of_ok given] at run
    exact ⟨value, middle, rfl, run⟩

end

variable {action : Loads α} {next : α → Loads β}

/-- What has to hold before a run, for something to hold after it. -/
theorem wp_eq {σ : Type} (action : ExceptT Fault (StateM σ) α)
    (post : PostCond α (.except Fault (.arg σ .pure))) (before : σ) :
    wp⟦action⟧ post before = match action before with
      | (.ok value, after) => post.1 value after
      | (.error fault, after) => post.2.1 fault after := by
  have run : (StateT.run action.run before).run = action before := rfl
  simp only [wp, PredTrans.apply_pushExcept, PredTrans.apply_pushArg, run]
  rcases action before with ⟨fault | value, after⟩ <;> rfl

theorem get_bind (next : Catalog → Loads β) (before : Catalog) :
    ((get : Loads Catalog) >>= next) before = next before before :=
  rfl

abbrev kept {α : Type} (start : Catalog) : PostCond α (.except Fault (.arg Catalog .pure)) :=
  post⟨fun _ catalog => ⌜start.Reaches catalog⌝, fun _ catalog => ⌜start.Reaches catalog⌝⟩

/-- Whatever comes of the action, all that it does to the catalog is loading. -/
abbrev Moves (action : Loads α) (start : Catalog) : Prop :=
  ⦃fun catalog => ⌜start.Reaches catalog⌝⦄ action ⦃kept start⦄

namespace Moves

theorem reaches {before after : Catalog} (moves : action.Moves before)
    {outcome : Except Fault α} (run : action before = (outcome, after)) : before.Reaches after := by
  have moved := moves before .refl
  rw [wp_eq, run] at moved
  cases outcome <;> exact moved

theorem of_run {start : Catalog} (moves : ∀ before : Catalog, before.Reaches (action before).2) :
    action.Moves start := by
  intro before reached
  have moved := Relation.ReflTransGen.trans reached (moves before)
  rw [wp_eq]
  rcases given : action before with ⟨fault | value, after⟩ <;> rwa [given] at moved

@[spec] theorem of_lift {start : Catalog} {outcome : Except Fault α} :
    (MonadLift.monadLift outcome : Loads α).Moves start :=
  of_run fun _ => by cases outcome <;> exact .refl

end Moves

end Loads

namespace Catalog

open Loads Std.Do

section

variable {start before : Catalog} {name last path : Text} {number : Nat} {folder : Folder}
  {reading : Reading Definition}

theorem enter_eq (reading : Reading Definition) (before : Catalog) :
    enter reading before = (match reading.result with
      | .error fault => (throw fault : Loads Entity)
      | .ok definition => do
        let number := (← get).definitions.length
        modify fun (catalog : Catalog) => catalog.addDefinition definition
        return .definition number)
        { before with notices := before.notices ++ reading.notices } :=
  rfl

theorem enter_of_ok {definition : Definition} (read : reading.result = .ok definition) :
    enter reading before = (.ok (.definition before.definitions.length),
      ({ before with notices := before.notices ++ reading.notices } : Catalog).addDefinition
        definition) := by
  rw [enter_eq, read]
  rfl

theorem enter_of_error {fault : Fault} (failed : reading.result = .error fault) :
    enter reading before =
      (.error fault, { before with notices := before.notices ++ reading.notices }) := by
  rw [enter_eq, failed]
  rfl

@[spec] theorem enter_moves : (enter reading).Moves start := by
  refine .of_run fun before => ?_
  have noted : before.Reaches { before with notices := before.notices ++ reading.notices } :=
    .single (.notice _)
  cases result : reading.result with
  | error fault =>
    rw [enter_of_error result]
    exact noted
  | ok definition =>
    rw [enter_of_ok result]
    exact noted.tail (.definition definition)

theorem loadFolder_eq (name last path : Text) (before : Catalog) :
    loadFolder name last path before = (match before.modules.get? name with
      | some number => (pure (.folder number) : Loads Entity)
      | none => do
        set (before.addFolder name last path)
        return .folder before.folders.length) before :=
  rfl

theorem loadFolder_of_known (known : before.modules.get? name = some number) :
    loadFolder name last path before = (.ok (.folder number), before) := by
  rw [loadFolder_eq, known]
  rfl

theorem loadFolder_of_new (new : before.modules.get? name = none) :
    loadFolder name last path before =
      (.ok (.folder before.folders.length), before.addFolder name last path) := by
  rw [loadFolder_eq, new]
  rfl

theorem load_eq (name : Text) (before : Catalog) :
    load name before = (match before.target name with
      | .nothing => (pure none : Loads (Option Entity))
      | .folder last path => do return some (← loadFolder name last path)
      | .file reading => do return some (← enter reading)) before :=
  rfl

theorem load_of_nothing (leads : before.target name = .nothing) :
    load name before = (.ok none, before) := by
  rw [load_eq, leads]
  rfl

theorem load_of_known (leads : before.target name = .folder last path)
    (known : before.modules.get? name = some number) :
    load name before = (.ok (some (.folder number)), before) := by
  rw [load_eq, leads]
  exact bind_of_ok (loadFolder_of_known known)

theorem load_of_new (leads : before.target name = .folder last path)
    (new : before.modules.get? name = none) :
    load name before =
      (.ok (some (.folder before.folders.length)), before.addFolder name last path) := by
  rw [load_eq, leads]
  exact bind_of_ok (loadFolder_of_new new)

theorem load_of_ok {definition : Definition} (leads : before.target name = .file reading)
    (read : reading.result = .ok definition) :
    load name before = (.ok (some (.definition before.definitions.length)),
      ({ before with notices := before.notices ++ reading.notices } : Catalog).addDefinition
        definition) := by
  rw [load_eq, leads]
  exact bind_of_ok (enter_of_ok read)

theorem load_of_error {fault : Fault} (leads : before.target name = .file reading)
    (failed : reading.result = .error fault) :
    load name before =
      (.error fault, { before with notices := before.notices ++ reading.notices }) := by
  rw [load_eq, leads]
  exact bind_of_error (enter_of_error failed)

@[spec] theorem load_moves : (load name).Moves start := by
  refine .of_run fun before => ?_
  cases leads : before.target name with
  | nothing => rw [load_of_nothing leads]
  | folder last path =>
    cases known : before.modules.get? name with
    | some number => rw [load_of_known leads known]
    | none =>
      rw [load_of_new leads known]
      exact .single (.folder leads known)
  | file reading =>
    rw [load_eq, leads]
    dsimp only
    rcases entered : enter reading before with ⟨fault | entity, after⟩
    · rw [bind_of_error entered]
      exact enter_moves.reaches entered
    · rw [bind_of_ok entered]
      exact enter_moves.reaches entered

theorem stands_of_load {entity : Entity} {after : Catalog}
    (loaded : load name before = (.ok (some entity), after)) : after.Stands name entity := by
  cases leads : before.target name with
  | nothing =>
    rw [load_of_nothing leads] at loaded
    cases loaded
  | folder last path =>
    cases known : before.modules.get? name with
    | some number =>
      rw [load_of_known leads known] at loaded
      cases loaded
      exact .folder leads known
    | none =>
      rw [load_of_new leads known] at loaded
      cases loaded
      exact .folder leads (by simp [addFolder])
  | file reading =>
    cases result : reading.result with
    | error fault =>
      rw [load_of_error leads result] at loaded
      cases loaded
    | ok definition =>
      rw [load_of_ok leads result] at loaded
      cases loaded
      exact .definition leads result (by simp [addDefinition, definition?])

end

section

variable {start before : Catalog} {name : Text} {number : Nat} {folder : Folder}

private theorem map_fst_ownParts (catalog : Catalog) (number : Nat) (folder : Folder) :
    (catalog.ownParts number folder).map Prod.fst = ownNames := by
  have routines : routineNames.map
      (Prod.fst ∘ fun name => (name, Value.internal (.folder number) name)) = routineNames :=
    List.map_id _
  rw [ownParts, List.map_append, List.map_map, routines]
  rfl

theorem lookup_ownParts_eq_none_iff (catalog : Catalog) (number : Nat) (folder : Folder) :
    (catalog.ownParts number folder).lookup name = none ↔ name ∉ ownNames := by
  rw [List.lookup_eq_none_iff, ← map_fst_ownParts catalog number folder, List.mem_map]
  constructor
  · rintro different ⟨part, member, rfl⟩
    exact absurd (different part member) (by simp)
  · intro different part member
    exact bne_iff_ne.mpr fun same => different ⟨part, member, same.symm⟩

theorem memberOfFolder_eq (number : Nat) (name : Text) (before : Catalog) :
    memberOfFolder number name before = (match before.folder? number with
      | none => (pure .nothing : Loads Value)
      | some folder =>
        match (before.ownParts number folder).lookup name with
        | some value => pure value
        | none =>
          match folder.members.get? name with
          | some entity => pure (.entity entity)
          | none => loadMember number folder.package name) before :=
  rfl

theorem memberOfFolder_of_absent (absent : before.folder? number = none) :
    memberOfFolder number name before = (.ok .nothing, before) := by
  rw [memberOfFolder_eq, absent]
  rfl

section

variable (loaded : before.folder? number = some folder)
include loaded

theorem memberOfFolder_of_own {value : Value}
    (own : (before.ownParts number folder).lookup name = some value) :
    memberOfFolder number name before = (.ok value, before) := by
  rw [memberOfFolder_eq, loaded]
  dsimp only
  rw [own]
  rfl

theorem memberOfFolder_of_known {entity : Entity} (free : name ∉ ownNames)
    (known : folder.members.get? name = some entity) :
    memberOfFolder number name before = (.ok (.entity entity), before) := by
  rw [memberOfFolder_eq, loaded]
  dsimp only
  rw [(lookup_ownParts_eq_none_iff before number folder).mpr free]
  dsimp only
  rw [known]
  rfl

theorem memberOfFolder_of_new (free : name ∉ ownNames) (new : folder.members.get? name = none) :
    memberOfFolder number name before = loadMember number folder.package name before := by
  rw [memberOfFolder_eq, loaded]
  dsimp only
  rw [(lookup_ownParts_eq_none_iff before number folder).mpr free]
  dsimp only
  rw [new]

end

theorem loadMember_eq (number : Nat) (package name : Text) :
    loadMember number package name = (do
      match ← load (package ++ "." ++ name) with
      | none => return .nothing
      | some entity =>
        modify fun catalog => catalog.setMember number name entity
        return .entity entity) :=
  rfl

variable {after : Catalog} {package : Text}

theorem loadMember_of_nothing (loaded : load (package ++ "." ++ name) before = (.ok none, after)) :
    loadMember number package name before = (.ok .nothing, after) := by
  rw [loadMember_eq, bind_of_ok loaded]
  rfl

theorem loadMember_of_error {fault : Fault}
    (loaded : load (package ++ "." ++ name) before = (.error fault, after)) :
    loadMember number package name before = (.error fault, after) := by
  rw [loadMember_eq, bind_of_error loaded]

theorem loadMember_of_entity {entity : Entity}
    (loaded : load (package ++ "." ++ name) before = (.ok (some entity), after)) :
    loadMember number package name before =
      (.ok (.entity entity), after.setMember number name entity) := by
  rw [loadMember_eq, bind_of_ok loaded]
  rfl

theorem folder?_load (loaded : before.folder? number = some folder) (name : Text) :
    (load name before).2.folder? number = some folder := by
  cases leads : before.target name with
  | nothing =>
    rw [load_of_nothing leads]
    exact loaded
  | folder last path =>
    cases known : before.modules.get? name with
    | some other =>
      rw [load_of_known leads known]
      exact loaded
    | none =>
      rw [load_of_new leads known]
      exact (List.getElem?_append_left (List.getElem?_eq_some_iff.mp loaded).1).trans loaded
  | file reading =>
    cases result : reading.result with
    | error fault =>
      rw [load_of_error leads result]
      exact loaded
    | ok definition =>
      rw [load_of_ok leads result]
      exact loaded

@[spec] theorem memberOfFolder_moves : (memberOfFolder number name).Moves start := by
  refine .of_run fun before => ?_
  cases loaded : before.folder? number with
  | none => rw [memberOfFolder_of_absent loaded]
  | some folder =>
    cases own : (before.ownParts number folder).lookup name with
    | some value => rw [memberOfFolder_of_own loaded own]
    | none =>
      have free := (lookup_ownParts_eq_none_iff before number folder).mp own
      cases known : folder.members.get? name with
      | some entity => rw [memberOfFolder_of_known loaded free known]
      | none =>
        rw [memberOfFolder_of_new loaded free known]
        have kept := folder?_load loaded (folder.package ++ "." ++ name)
        rcases given : load (folder.package ++ "." ++ name) before with
          ⟨fault | _ | entity, after⟩
        · rw [loadMember_of_error given]
          exact load_moves.reaches given
        · rw [loadMember_of_nothing given]
          exact load_moves.reaches given
        · rw [given] at kept
          rw [loadMember_of_entity given]
          exact (load_moves.reaches given).tail (.member kept free known (stands_of_load given))

@[spec] theorem collectMembers_moves {found : List (Text × Value)} {names : List Text} :
    (collectMembers number found names).Moves start := by
  induction names generalizing found start with
  | nil => mvcgen [collectMembers]
  | cons name names ih =>
    rw [collectMembers]
    mvcgen [ih] <;> grind

@[spec] theorem membersOfFolder_moves : (membersOfFolder number).Moves start := by
  mvcgen [membersOfFolder] <;> grind

@[spec] theorem askFolder_moves : (askFolder number name).Moves start := by
  unfold askFolder
  mvcgen <;> grind

end

section

variable {start : Catalog} {rootModule base : Text} {visit : SourceTree.Visit}
  {found : NameTable Value}

variable {name : Text} {number : Nat} {definition : ClassDef}

@[spec] theorem baseInFolder_moves {folderName : Text} :
    (baseInFolder number folderName base).Moves start := by
  mvcgen [baseInFolder] <;> grind

@[spec] theorem baseInFolders_moves {names : List Text} :
    (baseInFolders rootModule base names).Moves start := by
  induction names generalizing start with
  | nil => mvcgen [baseInFolders]
  | cons name names ih => mvcgen [baseInFolders, ih] <;> grind

@[spec] theorem baseInFiles_moves : (baseInFiles visit found base).Moves start := by
  mvcgen [baseInFiles] <;> grind

@[spec] theorem findBase_moves : (findBase rootModule visit found base).Moves start := by
  mvcgen [findBase] <;> grind

@[spec] theorem basesOf_moves : (basesOf definition).Moves start := by
  mvcgen [basesOf]
  invariants
  · kept start
  · kept start
  with grind

@[spec] theorem askClass_moves : (askClass number definition name).Moves start := by
  unfold askClass
  -- The names that were asked for before are no matter, and comparing them takes long.
  repeat' split
  all_goals clear * - start
  all_goals mvcgen <;> grind

@[spec] theorem ask_moves {entity : Entity} {defaults : List Value} :
    (ask entity name defaults).Moves start := by
  mvcgen [ask]

@[spec] theorem analysisPath_moves {module : Text} : (analysisPath module).Moves start := by
  refine .of_run fun before => ?_
  rw [analysisPath, get_bind]
  rcases before.analyzed.get? module with _ | _ | path
  · dsimp only
    rcases (before.modules.get? module).bind before.folder? with _ | folder
    · exact .single (.analysis _ (.refl before) fun _ _ known => .inl known)
    · dsimp only
      by_cases isKnown : before.analyses.contains folder.path
      · rw [if_pos isKnown]
        exact .single (.analysis _ (.refl before) fun _ _ known => .inl known)
      · rw [if_neg isKnown]
        have new : before.analyses.get? folder.path = none := by
          simpa [Table.contains] using isKnown
        refine .single (.analysis _ ?_ ?_)
        · intro path analysis known
          refine ⟨analysis, ?_, rfl⟩
          rw [Table.get?_insert, if_neg, known]
          rintro rfl
          rw [new] at known
          cases known
        · intro path analysis known
          rw [Table.get?_insert] at known
          split at known
          · cases known
            exact .inr fun _ none => by cases none
          · exact .inl known
  · exact .refl
  · exact .refl

def withDocs (catalog : Catalog) (path : Text) (analysis : Analysis) (docs : MemberDocs) :
    Catalog :=
  { catalog with analyses := catalog.analyses.insert path { analysis with docs := some docs } }

theorem memberDocs_cases (path : Text) (before : Catalog) :
    (before.analyses.get? path = none ∧ memberDocs path before = (.ok {}, before)) ∨
    ∃ analysis, before.analyses.get? path = some analysis ∧
      ((∃ docs, analysis.docs = some docs ∧ memberDocs path before = (.ok docs, before)) ∨
      ∃ middle, before.Reaches middle ∧
        ((∃ fault, memberDocs path before = (.error fault, middle)) ∨
        ∃ members docs, MemberDocs.ofMembers middle analysis.module members = .ok docs ∧
          memberDocs path before = (.ok docs, middle.withDocs path analysis docs))) := by
  rw [memberDocs, get_bind]
  cases known : before.analyses.get? path with
  | none => exact .inl ⟨rfl, rfl⟩
  | some analysis =>
    refine .inr ⟨analysis, rfl, ?_⟩
    dsimp only
    cases collected : analysis.docs with
    | some docs => exact .inl ⟨docs, rfl, rfl⟩
    | none =>
      refine .inr ?_
      dsimp only
      rw [get_bind]
      cases before.modules.get? analysis.module with
      | none => exact ⟨before, .refl, .inl ⟨_, rfl⟩⟩
      | some number =>
        dsimp only
        rcases given : membersOfFolder number before with ⟨fault | members, middle⟩
        · exact ⟨middle, membersOfFolder_moves.reaches given, .inl ⟨fault, bind_of_error given⟩⟩
        · rw [bind_of_ok given, get_bind]
          refine ⟨middle, membersOfFolder_moves.reaches given, ?_⟩
          cases result : MemberDocs.ofMembers middle analysis.module members with
          | error fault => exact .inl ⟨fault, rfl⟩
          | ok docs => exact .inr ⟨members, docs, result, rfl⟩

@[spec] theorem memberDocs_moves {path : Text} : (memberDocs path).Moves start := by
  refine .of_run fun before => ?_
  rcases memberDocs_cases path before with ⟨_, run⟩ | ⟨analysis, known, ⟨docs, _, run⟩ | collecting⟩
  · rw [run]
  · rw [run]
  obtain ⟨middle, reached, ⟨fault, run⟩ | ⟨members, docs, collected, run⟩⟩ := collecting
  · rw [run]
    exact reached
  rw [run]
  refine reached.tail (.analysis middle.analyzed ?_ ?_)
  · intro other kept isKept
    rw [Table.get?_insert]
    split
    · rename_i same
      -- The members were looked at meanwhile, but the folder is still analyzed for its module.
      obtain ⟨still, isStill, sameModule⟩ := reached.keepsModules path analysis known
      cases (same ▸ isKept).symm.trans isStill
      exact ⟨_, rfl, sameModule.symm⟩
    · exact ⟨kept, isKept, rfl⟩
  · intro other kept isKept
    rw [Table.get?_insert] at isKept
    split at isKept
    · cases isKept
      refine .inr fun _ isDocs => ?_
      cases isDocs
      exact ⟨members, collected⟩
    · exact .inl isKept

end

end Catalog

inductive Lookup where
  | load (name : Text)
  | ask (entity : Entity) (name : Text)
  | members (folder : Nat)
  | bases (definition : ClassDef)
  | analysis (module : Text)
  | docs (path : Text)

def Lookup.run : Lookup → Loads Unit
  | load name => do let _ ← Catalog.load name
  | ask entity name => do let _ ← Catalog.ask entity name []
  | members folder => do let _ ← Catalog.membersOfFolder folder
  | bases definition => do let _ ← Catalog.basesOf definition
  | analysis module => do let _ ← Catalog.analysisPath module
  | docs path => do let _ ← Catalog.memberDocs path

theorem Lookup.run_moves (lookup : Lookup) (start : Catalog) : lookup.run.Moves start := by
  cases lookup <;> mvcgen [run] <;> grind

namespace Catalog

variable (catalog : Catalog) (lookups : List Lookup)

def after : Catalog :=
  lookups.foldl (fun catalog lookup => (lookup.run catalog).2) catalog

theorem reaches_after : catalog.Reaches (catalog.after lookups) := by
  induction lookups generalizing catalog with
  | nil => exact .refl
  | cons lookup lookups ih => exact ((lookup.run_moves catalog).reaches rfl).trans (ih _)

end Catalog

end MatlabDocs
