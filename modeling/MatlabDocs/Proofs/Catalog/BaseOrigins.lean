import MatlabDocs.Proofs.Catalog.Coherence
import MatlabDocs.Proofs.Definition.Module

/-!
# Where base classes are found

What the search for the base classes of a class comes up with is known to a loaded folder, or it
has been read from a file that is named like the base class.  As soon as a loaded folder is met
that holds such a file, what is found is known to a loaded folder, and it stays so to the end of
the search.
-/

namespace MatlabDocs

open List Loads Table

/-- What holds of the items that are done, for each item in turn, holds of all in the end. -/
theorem Loads.foldlM_of_ok {α β : Type} {step : β → α → Loads β} {items : List α}
    {holds : List α → β → Catalog → Prop}
    (each : ∀ done item value next before after, item ∈ items → holds done value before →
      step value item before = (.ok next, after) → holds (done ++ [item]) next after)
    {value last : β} {before after : Catalog} (start : holds [] value before)
    (run : items.foldlM step value before = (.ok last, after)) : holds items last after := by
  suffices general : ∀ rest done value before, (∀ item ∈ rest, item ∈ items) →
      holds done value before → rest.foldlM step value before = (.ok last, after) →
      holds (done ++ rest) last after from
    general items [] value before (fun _ member => member) start run
  intro rest
  induction rest with
  | nil =>
    intro done value before _ reached run
    cases run
    rw [append_nil]
    exact reached
  | cons item rest ih =>
    intro done value before inItems reached run
    rw [foldlM_cons] at run
    obtain ⟨next, middle, given, run⟩ := ok_of_bind run
    obtain ⟨isItem, others⟩ := forall_mem_cons.mp inItems
    rw [append_cons]
    exact ih (done ++ [item]) next middle others
      (each done item value next before middle isItem reached given) run

namespace SourceTree

variable {tree : SourceTree} (names : ∀ place ∈ tree.folders, ∀ name ∈ place, Path.IsName name)
include names

private theorem prefix_join {path name : Text} (member : name ∈ tree.foldersIn path) :
    path <+: Path.join path name := by
  have notTop : ¬name.startsWith "/" = true := by
    rw [foldersIn] at member
    split at member
    · obtain ⟨place, isPlace, isLast⟩ := mem_filterMap.mp (mem_mergeSort.mp member)
      split at isLast
      · have isName := names place isPlace name (mem_of_getLast? isLast)
        simpa using isName.startsWith []
      · cases isLast
    · cases member
  rw [Path.join, if_neg notTop]
  split
  · exact prefix_append _ _
  · rw [append_assoc]
    exact prefix_append _ _

private theorem prefix_walkDown {depth : Nat} {start : Text} {visit : Visit}
    (member : visit ∈ tree.walkDown depth start) : start <+: visit.path := by
  induction depth generalizing start with
  | zero => cases member
  | succ depth ih =>
    rw [walkDown] at member
    rcases mem_cons.mp member with rfl | below
    · exact prefix_rfl
    · obtain ⟨name, isFolder, later⟩ := mem_flatMap.mp below
      exact (prefix_join names (mem_of_mem_filter isFolder)).trans (ih later)

theorem prefix_walk {start : Text} {visit : Visit} (member : visit ∈ tree.walk start) :
    start <+: visit.path := by
  rw [walk] at member
  split at member
  · exact prefix_walkDown names member
  · cases member

end SourceTree

namespace Catalog

/-- The dotted name of the folder in which something with a dotted name lies. -/
def homeOf (name : Text) : Text :=
  Definition.moduleOfPath (Path.split (Path.ofDotted name)).1

theorem module_applicationReading {name path : Text} {file : SourceFile} {definition : Definition}
    (read : (applicationReading name path file).result = .ok definition) :
    definition.module = Definition.moduleOfPath path := by
  unfold applicationReading ApplicationDef.read at read
  dsimp only at read
  split at read
  · rename_i archive
    cases described : ApplicationDef.docstringOf archive with
    | error fault =>
      rw [described] at read
      cases read
    | ok docstring =>
      rw [described] at read
      cases read
      rfl
  · cases read

theorem module_of_target {catalog : Catalog} {name : Text} {reading : Reading Definition}
    {definition : Definition} (leads : catalog.target name = .file reading)
    (read : reading.result = .ok definition) : definition.module = homeOf name := by
  have notEmpty : name ≠ [] := by
    rintro rfl
    cases leads
  rw [target_eq notEmpty] at leads
  split at leads
  · cases leads
  split at leads
  · cases leads
    exact Definition.module_ofBytes read
  split at leads
  · rename_i file _
    cases leads
    exact module_applicationReading read
  · cases leads

section

variable {before after : Catalog} {number : Nat} {folder : Folder} {name base : Text}
  (coherent : before.Coherent) (loaded : before.folder? number = some folder)

include coherent loaded in
theorem stands_of_askFolder {entity : Entity}
    (asked : askFolder number name before = (.ok (.entity entity), after)) :
    after.Stands (folder.package ++ "." ++ name) entity := by
  have reached := askFolder_moves.reaches asked
  obtain ⟨_, _, later, isLater, known⟩ := member_of_askFolder asked
  obtain ⟨grown, isGrown, grows⟩ := reached.grows.folders number folder loaded
  cases isLater.symm.trans isGrown
  rw [← grows.package_eq]
  exact ((reached.coherent coherent).standing number later name entity isLater known).2

/-- A folder is asked for a base class by its name, and then without the characters of the folder's
name in front. -/
def IsKey (folderName base key : Text) : Prop :=
  key = base ∨ key = base.dropWhile (folderName.dropWhile (· == '+')).contains

/-- A loaded folder that has a readable file with the name of the base class. -/
structure Holds (catalog : Catalog) (package base : Text) : Prop where
  loaded : (catalog.modules.get? package).isSome
  notList : base ≠ "__all__".toList
  free : base ∉ ownNames
  readable : ∃ reading definition, catalog.target (package ++ "." ++ base) = .file reading ∧
    reading.result = .ok definition

/-- A loaded folder knows the value under the name of the base class. -/
structure Knows (catalog : Catalog) (package folderName base : Text) (value : Value) : Prop where
  loaded : (catalog.modules.get? package).isSome
  stands : ∃ key, IsKey folderName base key ∧ ∀ entity, value = .entity entity →
    catalog.Stands (package ++ "." ++ key) entity

variable {package rootModule : Text}

theorem Grows.isSome_modules (grows : before.Grows after)
    (loaded : (before.modules.get? package).isSome) : (after.modules.get? package).isSome := by
  obtain ⟨number, known⟩ := Option.isSome_iff_exists.mp loaded
  rw [grows.modules package number known]
  rfl

theorem Holds.of_reaches (holds : before.Holds package base) (reaches : before.Reaches after) :
    after.Holds package base where
  loaded := reaches.grows.isSome_modules holds.loaded
  notList := holds.notList
  free := holds.free
  readable := by
    rw [reaches.target_eq]
    exact holds.readable

theorem Knows.of_reaches {value : Value} (knows : before.Knows package name base value)
    (reaches : before.Reaches after) : after.Knows package name base value where
  loaded := reaches.grows.isSome_modules knows.loaded
  stands := by
    obtain ⟨key, isKey, stands⟩ := knows.stands
    refine ⟨key, isKey, ?_⟩
    intro entity isEntity
    exact (stands entity isEntity).of_grows reaches.grows (reaches.target_eq _)

include coherent loaded in
private theorem isPresent_of_holds {direct : Value} (holds : before.Holds folder.package base)
    (asked : askFolder number base before = (.ok direct, after)) : direct.isPresent := by
  obtain ⟨reading, definition, leads, read⟩ := holds.readable
  obtain ⟨index, next, found, _⟩ := memberOfFolder_of_read coherent loaded holds.free leads read
  rw [askFolder_of_ne holds.notList, found] at asked
  cases asked
  rfl

include coherent loaded in
theorem baseInFolder_of_ok {value : Value}
    (asked : baseInFolder number name base before = (.ok value, after)) :
    after.Knows folder.package name base value ∧
      (before.Holds folder.package base → value.isPresent) := by
  have loading := baseInFolder_moves.reaches asked
  have module : (after.modules.get? folder.package).isSome := by
    rw [loading.grows.modules _ number (coherent.listed number folder loaded)]
    rfl
  rw [baseInFolder] at asked
  obtain ⟨direct, middle, given, asked⟩ := ok_of_bind asked
  by_cases present : direct.isPresent
  · rw [if_pos present] at asked
    cases asked
    refine ⟨⟨module, base, .inl rfl, ?_⟩, fun _ => present⟩
    rintro entity rfl
    exact stands_of_askFolder coherent loaded given
  · rw [if_neg present] at asked
    have reached := askFolder_moves.reaches given
    obtain ⟨grown, isGrown, grows⟩ := reached.grows.folders number folder loaded
    refine ⟨⟨module, _, .inr rfl, ?_⟩, ?_⟩
    · rintro entity rfl
      rw [← grows.package_eq]
      exact stands_of_askFolder (reached.coherent coherent) isGrown asked
    · intro holds
      exact absurd (isPresent_of_holds coherent loaded holds given) present

theorem baseInFolders_of_absent (absent : before.modules.get? (packageIn rootModule name) = none)
    (names : List Text) :
    baseInFolders rootModule base (name :: names) before =
      baseInFolders rootModule base names before := by
  rw [baseInFolders, get_bind, absent]

theorem baseInFolders_of_loaded
    (known : before.modules.get? (packageIn rootModule name) = some number) (names : List Text) :
    baseInFolders rootModule base (name :: names) before = (do
      let found ← baseInFolder number name base
      if found.isPresent then return some found
      baseInFolders rootModule base names) before := by
  rw [baseInFolders, get_bind, known]

/-- What comes of asking the loaded folders: what one of them knows, or nothing, and then none of
them holds a file for the base class. -/
theorem baseInFolders_of_ok (coherent : before.Coherent) {names : List Text} {value? : Option Value}
    (asked : baseInFolders rootModule base names before = (.ok value?, after)) :
    (∀ value, value? = some value → value.isPresent ∧
      ∃ name ∈ names, after.Knows (packageIn rootModule name) name base value) ∧
    (value? = none → ∀ name ∈ names, ¬before.Holds (packageIn rootModule name) base) := by
  induction names generalizing before with
  | nil =>
    cases asked
    exact ⟨nofun, fun _ _ none => absurd none not_mem_nil⟩
  | cons name names ih =>
    cases known : before.modules.get? (packageIn rootModule name) with
    | none =>
      rw [baseInFolders_of_absent known] at asked
      obtain ⟨answered, unanswered⟩ := ih coherent asked
      constructor
      · intro value isValue
        obtain ⟨present, other, member, knows⟩ := answered value isValue
        exact ⟨present, other, mem_cons_of_mem _ member, knows⟩
      · intro isNone
        refine forall_mem_cons.mpr ⟨?_, unanswered isNone⟩
        intro holds
        have isLoaded := holds.loaded
        rw [known] at isLoaded
        cases isLoaded
    | some number =>
      rw [baseInFolders_of_loaded known] at asked
      obtain ⟨folder, loaded, named⟩ := coherent.registered _ number known
      obtain ⟨found, middle, given, asked⟩ := ok_of_bind asked
      have reached := baseInFolder_moves.reaches given
      obtain ⟨knows, holding⟩ := baseInFolder_of_ok coherent loaded given
      rw [named] at knows holding
      by_cases present : found.isPresent
      · rw [if_pos present] at asked
        cases asked
        refine ⟨?_, nofun⟩
        intro value isValue
        cases isValue
        exact ⟨present, name, mem_cons_self, knows⟩
      · rw [if_neg present] at asked
        obtain ⟨answered, unanswered⟩ := ih (reached.coherent coherent) asked
        constructor
        · intro value isValue
          obtain ⟨isPresent, other, member, knowsLater⟩ := answered value isValue
          exact ⟨isPresent, other, mem_cons_of_mem _ member, knowsLater⟩
        · intro isNone
          refine forall_mem_cons.mpr ⟨fun holds => present (holding holds), ?_⟩
          intro other member holds
          exact unanswered isNone other member (holds.of_reaches reached)

end

section

variable {before after : Catalog} {found next : NameTable Value} {base : Text} {value : Value}

/-- The value is what a loaded folder among the searched ones knows. -/
def FromModule (catalog : Catalog) (base : Text) (value : Value) : Prop :=
  ∃ visit ∈ catalog.tree.walk catalog.root, ∃ name ∈ visit.folders,
    catalog.Knows (packageIn (moduleAt catalog.root visit.path) name) name base value

/-- The value has been read from a file in a visited folder. -/
inductive FromFile (catalog : Catalog) (base : Text) : Value → Prop where
  | intro {visit : SourceTree.Visit} {file : SourceFile} {definition : Definition} {index : Nat} :
      visit ∈ catalog.tree.walk catalog.root → baseFile? catalog.tree visit base = some file →
      (Definition.ofBytes base visit.path none file.bytes).result = .ok definition →
      catalog.definition? index = some definition →
      FromFile catalog base (.entity (.definition index))

theorem FromModule.of_reaches (origin : before.FromModule base value)
    (reaches : before.Reaches after) : after.FromModule base value := by
  obtain ⟨tree, root, _, _⟩ := reaches.settings_eq
  obtain ⟨visit, isVisit, name, isFolder, knows⟩ := origin
  rw [← tree, ← root] at isVisit
  rw [← root] at knows
  exact ⟨visit, isVisit, name, isFolder, knows.of_reaches reaches⟩

theorem FromFile.of_reaches (origin : before.FromFile base value)
    (reaches : before.Reaches after) : after.FromFile base value := by
  obtain ⟨tree, root, _, _⟩ := reaches.settings_eq
  obtain ⟨isVisit, isFile, read, known⟩ := origin
  rw [← tree, ← root] at isVisit
  rw [← tree] at isFile
  exact .intro isVisit isFile read (reaches.grows.definitions _ _ known)

/-- What is known of the base classes in the course of the search. -/
structure Search (bases : List Text) (catalog : Catalog) (found : NameTable Value) : Prop where
  coherent : catalog.Coherent
  nodup : found.keys.Nodup
  isBase : ∀ base ∈ found.keys, base ∈ bases
  origin : ∀ base value, found.get? base = some value → value.isPresent →
    catalog.FromModule base value ∨ catalog.FromFile base value

def Settled (catalog : Catalog) (found : NameTable Value) (base : Text) : Prop :=
  ∃ value, found.get? base = some value ∧ value.isPresent ∧ catalog.FromModule base value

theorem Settled.of_reaches (settled : before.Settled found base)
    (reaches : before.Reaches after) : after.Settled found base := by
  obtain ⟨value, isValue, present, origin⟩ := settled
  exact ⟨value, isValue, present, origin.of_reaches reaches⟩

variable {bases : List Text}

theorem Search.of_reaches (search : before.Search bases found) (reaches : before.Reaches after) :
    after.Search bases found where
  coherent := reaches.coherent search.coherent
  nodup := search.nodup
  isBase := search.isBase
  origin base value isValue present := by
    rcases search.origin base value isValue present with inModule | inFile
    · exact .inl (inModule.of_reaches reaches)
    · exact .inr (inFile.of_reaches reaches)

theorem Search.insert (search : before.Search bases found) (isBase : base ∈ bases)
    (origin : before.FromModule base value ∨ before.FromFile base value) :
    before.Search bases (found.insert base value) where
  coherent := search.coherent
  nodup := nodup_insertEntry search.nodup
  isBase other member := by
    rcases mem_keys_insertEntry.mp member with rfl | old
    · exact isBase
    · exact search.isBase other old
  origin other answer isAnswer present := by
    rw [get?_insert] at isAnswer
    split at isAnswer
    · rename_i same
      cases isAnswer
      rw [same]
      exact origin
    · exact search.origin other answer isAnswer present

theorem Search.start (coherent : before.Coherent) (bases : List Text) :
    before.Search bases (Table.ofList (bases.map (·, Value.nothing))) where
  coherent := coherent
  nodup := nodup_keys_ofList _
  isBase base member := by
    obtain ⟨entry, isEntry, rfl⟩ := mem_map.mp member
    obtain ⟨base, isBase, rfl⟩ := mem_map.mp (mem_of_mem_ofList isEntry)
    exact isBase
  origin base value isValue present := by
    obtain ⟨_, _, same⟩ := mem_map.mp (mem_of_get?_ofList isValue)
    cases same
    cases present

private theorem baseInFiles_of_ok {visit : SourceTree.Visit} (search : before.Search bases found)
    (isVisit : visit ∈ before.tree.walk before.root) (isBase : base ∈ bases)
    (taken : baseInFiles visit found base before = (.ok next, after)) :
    after.Search bases next ∧ ∀ other, before.Settled found other → after.Settled next other := by
  have reached := baseInFiles_moves.reaches taken
  rw [baseInFiles] at taken
  by_cases present : ((found.get? base).getD .nothing).isPresent
  · rw [if_pos present] at taken
    cases taken
    exact ⟨search, fun _ settled => settled⟩
  rw [if_neg present, get_bind] at taken
  cases isFile : baseFile? before.tree visit base with
  | none =>
    rw [isFile] at taken
    cases taken
    exact ⟨search, fun _ settled => settled⟩
  | some file =>
    rw [isFile] at taken
    dsimp only at taken
    cases read : (Definition.ofBytes base visit.path none file.bytes).result with
    | error fault =>
      rw [bind_of_error (enter_of_error read)] at taken
      cases taken
    | ok definition =>
      rw [bind_of_ok (enter_of_ok read)] at taken
      cases taken
      constructor
      · apply (search.of_reaches reached).insert isBase
        exact .inr (.intro isVisit isFile read getElem?_concat_length)
      · -- A settled base class is not looked for in files again.
        rintro other ⟨value, isValue, isPresent, origin⟩
        have different : other ≠ base := by
          rintro rfl
          rw [isValue] at present
          exact present isPresent
        refine ⟨value, ?_, isPresent, origin.of_reaches reached⟩
        rw [get?_insert, if_neg different, isValue]

theorem findBase_of_ok {visit : SourceTree.Visit} (search : before.Search bases found)
    (isVisit : visit ∈ before.tree.walk before.root) (isBase : base ∈ bases)
    (searched : findBase (moduleAt before.root visit.path) visit found base before =
      (.ok next, after)) :
    after.Search bases next ∧ (∀ other, before.Settled found other → after.Settled next other) ∧
      ∀ name ∈ visit.folders,
        before.Holds (packageIn (moduleAt before.root visit.path) name) base →
          after.Settled next base := by
  rw [findBase] at searched
  obtain ⟨value?, middle, given, searched⟩ := ok_of_bind searched
  have reached := baseInFolders_moves.reaches given
  obtain ⟨tree, root, _, _⟩ := reached.settings_eq
  rw [← tree, ← root] at isVisit
  obtain ⟨answered, unanswered⟩ := baseInFolders_of_ok search.coherent given
  cases value? with
  | some value =>
    cases searched
    obtain ⟨present, name, isFolder, knows⟩ := answered value rfl
    rw [← root] at knows
    have origin : after.FromModule base value := ⟨visit, isVisit, name, isFolder, knows⟩
    have settled : after.Settled (found.insert base value) base :=
      ⟨value, by rw [get?_insert, if_pos rfl], present, origin⟩
    refine ⟨(search.of_reaches reached).insert isBase (.inl origin), ?_, fun _ _ _ => settled⟩
    intro other old
    by_cases same : other = base
    · rw [same]
      exact settled
    · obtain ⟨answer, isAnswer, isPresent, itsOrigin⟩ := old.of_reaches reached
      exact ⟨answer, by rw [get?_insert, if_neg same, isAnswer], isPresent, itsOrigin⟩
  | none =>
    obtain ⟨goesOn, keeps⟩ := baseInFiles_of_ok (search.of_reaches reached) isVisit isBase searched
    refine ⟨goesOn, fun other old => keeps other (old.of_reaches reached), ?_⟩
    intro name isFolder holds
    exact absurd holds (unanswered rfl name isFolder)

theorem basesOf_eq (definition : ClassDef) (before : Catalog) :
    basesOf definition before = (do
      let found ← (before.tree.walk before.root).foldlM
        (fun found (visit : SourceTree.Visit) =>
          definition.bases.foldlM (findBase (moduleAt before.root visit.path) visit) found)
        (Table.ofList (definition.bases.map (·, Value.nothing)))
      return found.entries) before :=
  rfl

/-- The folder is asked for under this dotted name in the course of a visit. -/
def Asks (root : Text) (visit : SourceTree.Visit) (package : Text) : Prop :=
  ∃ name ∈ visit.folders, package = packageIn (moduleAt root visit.path) name

/-- The search as it has gone on from a start.  A base class that is done with a package is settled
if the package was loaded at the start and holds a file for it. -/
structure SearchedFrom (bases : List Text) (start : Catalog) (done : Text → Text → Prop)
    (found : NameTable Value) (catalog : Catalog) : Prop where
  reaches : start.Reaches catalog
  search : catalog.Search bases found
  settled : ∀ package base, done package base → start.Holds package base →
    catalog.Settled found base

namespace SearchedFrom

variable {bases : List Text} {start : Catalog} {done fewer : Text → Text → Prop}
  {visit : SourceTree.Visit}

section

variable (searched : SearchedFrom bases start done found before)
include searched

theorem mono (weaker : ∀ package base, fewer package base → done package base) :
    SearchedFrom bases start fewer found before where
  reaches := searched.reaches
  search := searched.search
  settled package base isDone := searched.settled package base (weaker package base isDone)

theorem findBase (isVisit : visit ∈ start.tree.walk start.root) (isBase : base ∈ bases)
    (run : Catalog.findBase (moduleAt start.root visit.path) visit found base before =
      (.ok next, after)) :
    SearchedFrom bases start
      (fun package other => done package other ∨ (other = base ∧ Asks start.root visit package))
      next after := by
  obtain ⟨tree, root, _, _⟩ := searched.reaches.settings_eq
  rw [← tree, ← root] at isVisit
  have loading := findBase_moves.reaches run
  rw [← root] at run
  obtain ⟨goesOn, keeps, settles⟩ := findBase_of_ok searched.search isVisit isBase run
  refine ⟨searched.reaches.trans loading, goesOn, ?_⟩
  intro package other isDone holds
  rcases isDone with old | ⟨rfl, name, isFolder, rfl⟩
  · exact keeps other (searched.settled package other old holds)
  · rw [← root] at holds
    exact settles name isFolder (holds.of_reaches searched.reaches)

private theorem findBases (isVisit : visit ∈ start.tree.walk start.root)
    (run : bases.foldlM (Catalog.findBase (moduleAt start.root visit.path) visit) found before =
      (.ok next, after)) :
    SearchedFrom bases start
      (fun package base => done package base ∨ (base ∈ bases ∧ Asks start.root visit package))
      next after := by
  refine @Loads.foldlM_of_ok _ _ (Catalog.findBase (moduleAt start.root visit.path) visit) bases
    (fun items => SearchedFrom bases start
      fun package base => done package base ∨ (base ∈ items ∧ Asks start.root visit package))
    ?_ found next before after ?_ run
  · intro items base value later middle last isBase soFar given
    apply (soFar.findBase isVisit isBase given).mono
    rintro package other (old | ⟨isDone, asks⟩)
    · exact .inl (.inl old)
    · rcases mem_append.mp isDone with earlier | isLast
      · exact .inl (.inr ⟨earlier, asks⟩)
      · exact .inr ⟨mem_singleton.mp isLast, asks⟩
  · apply searched.mono
    rintro package base (old | ⟨none, _⟩)
    · exact old
    · exact absurd none not_mem_nil

end

end SearchedFrom

theorem basesOf_of_ok {definition : ClassDef} {entries : List (Text × Value)}
    (coherent : before.Coherent) (searched : basesOf definition before = (.ok entries, after)) :
    ∃ found : NameTable Value, entries = found.entries ∧
      SearchedFrom definition.bases before
        (fun package base => base ∈ definition.bases ∧
          ∃ visit ∈ before.tree.walk before.root, Asks before.root visit package)
        found after := by
  rw [basesOf_eq] at searched
  obtain ⟨found, middle, given, isLast⟩ := ok_of_bind searched
  cases isLast
  refine ⟨found, rfl, ?_⟩
  -- The base classes are done with what the visits so far have asked for.
  refine @Loads.foldlM_of_ok _ _ _ _
    (fun visits => SearchedFrom definition.bases before
      fun package base => base ∈ definition.bases ∧
        ∃ visit ∈ visits, Asks before.root visit package)
    ?_ _ _ _ _ ?_ given
  · intro visits visit value next earlier later isVisit soFar run
    apply (soFar.findBases isVisit run).mono
    rintro package base ⟨isBase, other, isOther, asks⟩
    rcases mem_append.mp isOther with old | isLast
    · exact .inl ⟨isBase, other, old, asks⟩
    · cases mem_singleton.mp isLast
      exact .inr ⟨isBase, asks⟩
  · refine ⟨.refl, .start coherent definition.bases, ?_⟩
    rintro package base ⟨_, visit, none, _⟩
    exact absurd none not_mem_nil

end

end Catalog

end MatlabDocs
