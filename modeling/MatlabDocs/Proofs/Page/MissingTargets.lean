import MatlabDocs.Proofs.Page.MemberNames
import MatlabDocs.Proofs.Page.Writing

/-!
# Entries about what is missing

An entry whose name leads nowhere is left out with a warning: no line is written and nothing
fails.  Only the entry of a method fails, since something that is missing is taken for no
method.  What the source tree lacks is found by no lookup.
-/

namespace MatlabDocs

open List
open Loads (bind_of_ok bind_of_error get_bind)

namespace Catalog

/-- Nothing that is present has been found.  A lookup that does not come to an end finds nothing
either, but says nothing about what there is. -/
def IsMiss : Except Fault (Value × Value) → Prop
  | .ok (_, value) => value.isPresent = false
  | .error fault => fault ≠ .endless

/-- Nothing is found at the end of a path in a module. -/
def Misses (catalog : Catalog) (module : Text) (path : List Text) : Prop :=
  IsMiss (Page.lookUp { module, path, fullName := EntryName.join module path } catalog).1

/-- A name that nothing has that is no entity, and a class only for its members. -/
def IsPlainName (name : Text) : Prop :=
  name.startsWith "__" = false

/-- A name under which no folder has something of its own. -/
structure IsFreeName (name : Text) : Prop where
  notList : name ≠ "__all__".toList
  notOwn : name ∉ ownNames

def inheritedNames : List Text :=
  ["basedir", "encoding", "sphinx_env", "sphinx_app", "getter", "matlabify", "parse_mfile",
   "parse_mlappfile", "_remove_comment_header", "_remove_line_continuations",
   "_fix_function_signatures"]

/-- A name under which something has nothing, if it has the data and routines with these names. -/
structure IsForeignName (names : List Text) (name : Text) : Prop where
  plain : IsPlainName name
  notInherited : name ∉ inheritedNames
  notOwn : name ∉ names

def functionNames : List Text :=
  ["name", "module", "tokens", "docstring", "retv", "args", "rem_tks", "mat_kws"]

def methodNames : List Text :=
  ["name", "module", "tokens", "docstring", "retv", "args", "rem_tks", "cls", "attrs", "mat_kws",
   "reset_tokens"]

def propertyNames : List Text :=
  ["name", "cls", "attrs", "default", "docstring"]

/-- What a definition has by itself if it is no class. -/
def definitionNames : Definition → List Text
  | .function _ => functionNames
  | .script _ => ["name", "module", "tokens", "docstring", "rem_tks"]
  | .application _ => ["name", "module", "docstring"]
  | .class _ => []

/-- A definition has nothing at the end of a path: a class without such a member, a property that
was given up while it was read, or something that has no such part. -/
inductive DefinitionLacks : Definition → List Text → Prop where
  | part {definition : Definition} {name : Text} {path : List Text} :
      (∀ read, definition ≠ .class read) → IsForeignName (definitionNames definition) name →
      DefinitionLacks definition (name :: path)
  | member {definition : ClassDef} {member : Text} {path : List Text} :
      definition.properties.get? member = none → definition.methods.get? member = none →
      (∀ part ∈ member :: path, IsPlainName part) →
      DefinitionLacks (.class definition) (member :: path)
  | incomplete {definition : ClassDef} {member : Text} {property : PropertyDef}
      {path : List Text} :
      IsPlainName member → definition.properties.get? member = some property →
      property.default? = none ∨ property.docstring? = none →
      DefinitionLacks (.class definition) (member :: path)
  | property {definition : ClassDef} {member name : Text} {property : PropertyDef}
      {path : List Text} :
      IsPlainName member → definition.properties.get? member = some property →
      IsForeignName propertyNames name →
      DefinitionLacks (.class definition) (member :: name :: path)
  | method {definition : ClassDef} {member name : Text} {method : MethodDef} {path : List Text} :
      IsPlainName member → definition.properties.get? member = none →
      definition.methods.get? member = some method → IsForeignName methodNames name →
      DefinitionLacks (.class definition) (member :: name :: path)

/-- Why a file is not read: neither without an end, nor for an encoding that is not known here. -/
def IsFailure (fault : Fault) : Prop :=
  fault ≠ .endless ∧ fault ≠ .unknownEncoding

/-- A folder has nothing at the end of a path: the path leaves the folders, or a file on it cannot
be read, or has nothing at the rest of the path. -/
inductive FolderLacks (catalog : Catalog) : Text → List Text → Prop where
  | member {module name : Text} {path : List Text} :
      IsFreeName name → catalog.target (module ++ "." ++ name) = .nothing →
      (∀ part ∈ path, IsPlainName part) → FolderLacks catalog module (name :: path)
  | unreadable {module name : Text} {path : List Text} {reading : Reading Definition}
      {fault : Fault} :
      IsFreeName name → catalog.target (module ++ "." ++ name) = .file reading →
      reading.result = .error fault → IsFailure fault → FolderLacks catalog module (name :: path)
  | definition {module name : Text} {path : List Text} {reading : Reading Definition}
      {definition : Definition} :
      IsFreeName name → catalog.target (module ++ "." ++ name) = .file reading →
      reading.result = .ok definition → DefinitionLacks definition path →
      FolderLacks catalog module (name :: path)
  | folder {module name last folder : Text} {path : List Text} :
      IsFreeName name → catalog.target (module ++ "." ++ name) = .folder last folder →
      FolderLacks catalog (module ++ "." ++ name) path → FolderLacks catalog module (name :: path)

/-- The source tree has nothing at the end of a path in a module. -/
inductive Lacks (catalog : Catalog) (module : Text) (path : List Text) : Prop where
  | nothing : catalog.target module = .nothing → Lacks catalog module path
  | file {reading : Reading Definition} :
      catalog.target module = .file reading →
      (∀ fault, reading.result = .error fault → IsFailure fault) → Lacks catalog module path
  | folder {last folder : Text} :
      catalog.target module = .folder last folder → catalog.FolderLacks module path →
      Lacks catalog module path

section

variable {before : Catalog} {number : Nat} {name : Text}

theorem part_of_asked {value : Value} {ask : Loads Value}
    (asks : part? value name before = (some <$> ask : Loads (Option Value)) before) :
    part value name before = ask before := by
  rcases asked : ask before with ⟨fault | found, after⟩
  · rw [part, bind_of_error (asks.trans (bind_of_error asked))]
  · rw [part, bind_of_ok (asks.trans (bind_of_ok asked))]
    rfl

theorem part_of_folder (free : IsFreeName name) :
    part (.entity (.folder number)) name before = memberOfFolder number name before := by
  rw [← askFolder_of_ne free.notList]
  exact part_of_asked rfl

theorem IsPlainName.beq_eq_false (plain : IsPlainName name) {special : Text}
    (isSpecial : special.startsWith "__" = true) : (name == special) = false := by
  refine beq_eq_false_iff_ne.mpr ?_
  rintro rfl
  rw [plain] at isSpecial
  cases isSpecial

theorem part_nothing (plain : IsPlainName name) :
    part .nothing name before = (.error (.noSuchPart (before.typeOf .nothing) name), before) := by
  have found : part? .nothing name before = (.ok none, before) := by
    rw [part?, get_bind]
    dsimp only
    rw [plain.beq_eq_false (by decide)]
    rfl
  rw [part, bind_of_ok found]
  rfl

section

variable {definition : ClassDef} (known : before.class? number = some definition)
  (plain : IsPlainName name)

include known plain

/-- A class is asked for its members, the properties first. -/
theorem part_of_class :
    part (.entity (.definition number)) name before =
      (match definition.properties.get? name, definition.methods.get? name with
        | some property, _ => propertyOf number name property
        | none, some _ => .ok (.entity (.method number name))
        | none, none => .ok .nothing, before) := by
  have asks : part? (.entity (.definition number)) name before =
      (some <$> askClass number definition name : Loads (Option Value)) before := by
    rw [part?, get_bind]
    dsimp only
    rw [known]
    rfl
  rw [part_of_asked asks, askClass]
  repeat rw [plain.beq_eq_false (by decide)]
  cases definition.properties.get? name with
  | some property => cases propertyOf number name property <;> rfl
  | none => cases definition.methods.get? name <;> rfl

/-- A property that is not complete cannot be asked for. -/
theorem part_of_property {property : PropertyDef}
    (isProperty : definition.properties.get? name = some property) :
    (∃ fault, fault ≠ .endless ∧
      part (.entity (.definition number)) name before = (.error fault, before)) ∨
    (property.default? ≠ none ∧ property.docstring? ≠ none) ∧
      part (.entity (.definition number)) name before =
        (.ok (.entity (.property number name)), before) := by
  have found := part_of_class known plain
  rw [isProperty] at found
  dsimp only at found
  rcases propertyOf_cases number name property with ⟨_, failed⟩ | ⟨hasDefault, hasText, isEntity⟩
  · rw [failed] at found
    exact .inl ⟨_, Fault.noConfusion, found⟩
  · rw [isEntity] at found
    exact .inr ⟨⟨hasDefault, hasText⟩, found⟩

end

private theorem name_of_inheritedParts {entity : Entity} {part : Text × Value}
    (member : part ∈ before.inheritedParts entity) :
    part ∈ before.typeParts entity ∨ part.1 ∈ inheritedNames ∨ part.1.startsWith "__" = true := by
  have named : ∀ name ∈ (["__name__", "__doc__", "__module__", "__dict__", "__weakref__", "basedir",
      "encoding", "sphinx_env", "sphinx_app"] : List Text) ++ inheritedRoutines,
      name ∈ inheritedNames ∨ name.startsWith "__" = true := by
    decide
  rcases mem_append.mp member with fixed | others
  · exact .inr (named _ (mem_append_left _ (mem_map_of_mem (f := Prod.fst) fixed)))
  · rcases mem_append.mp others with ofType | routine
    · exact .inl ofType
    · obtain ⟨name, isRoutine, rfl⟩ := mem_map.mp routine
      exact .inr (named _ (mem_append_right _ isRoutine))

/-- What is no folder and no class has nothing under a foreign name. -/
theorem part_of_foreign {entity : Entity} {names : List Text} (foreign : IsForeignName names name)
    (fixed : part? (.entity entity) name before = (.ok (before.fixedPart? entity name), before))
    (named : (before.partsOf entity ++ before.typeParts entity).map Prod.fst = names) :
    part (.entity entity) name before =
      (.error (.noSuchPart (before.typeOf (.entity entity)) name), before) := by
  have absent : before.fixedPart? entity name = none := by
    rw [fixedPart?, lookup_eq_none_iff]
    intro part member
    refine bne_iff_ne.mpr ?_
    rintro rfl
    rcases mem_append.mp member with data | inherited
    · exact foreign.notOwn (named ▸ mem_map_of_mem (mem_append_left _ data))
    · rcases name_of_inheritedParts inherited with ofType | isInherited | isSpecial
      · exact foreign.notOwn (named ▸ mem_map_of_mem (mem_append_right _ ofType))
      · exact foreign.notInherited isInherited
      · rw [foreign.plain] at isSpecial
        cases isSpecial
  rw [absent] at fixed
  rw [part, bind_of_ok fixed]
  rfl

end

section

open Page

variable {catalog before after : Catalog} {module name : Text} {path : List Text}
  {parent value next : Value}

theorem followPath_of_ok (found : part value name before = (.ok next, after)) :
    followPath parent value (name :: path) before = followPath value next path after := by
  rw [followPath, bind_of_ok found]

theorem followPath_of_error {fault : Fault}
    (failed : part value name before = (.error fault, after)) :
    followPath parent value (name :: path) before = (.error fault, after) := by
  rw [followPath, bind_of_error failed]

theorem isMiss_followPath_nothing (plain : ∀ part ∈ path, IsPlainName part) :
    IsMiss (followPath parent .nothing path before).1 := by
  cases path with
  | nil => rfl
  | cons part path =>
    rw [followPath_of_error (part_nothing (plain part mem_cons_self))]
    exact Fault.noConfusion

private theorem isMiss_followPath_foreign {entity : Entity} {names : List Text}
    (foreign : IsForeignName names name)
    (fixed : part? (.entity entity) name before = (.ok (before.fixedPart? entity name), before))
    (named : (before.partsOf entity ++ before.typeParts entity).map Prod.fst = names) :
    IsMiss (followPath parent (.entity entity) (name :: path) before).1 := by
  rw [followPath_of_error (part_of_foreign foreign fixed named)]
  exact Fault.noConfusion

theorem DefinitionLacks.isMiss_followPath {definition : Definition} {index : Nat}
    (lacks : DefinitionLacks definition path) (known : before.definition? index = some definition) :
    IsMiss (followPath parent (.entity (.definition index)) path before).1 := by
  have isClass : ∀ read, definition = .class read → before.class? index = some read := by
    rintro read rfl
    rw [class?, known]
  cases lacks with
  | part notClass foreign =>
    refine isMiss_followPath_foreign foreign ?_ ?_
    · have noClass : before.class? index = none := by
        rw [class?, known]
        cases definition with
        | «class» read => exact absurd rfl (notClass read)
        | _ => rfl
      rw [part?, get_bind]
      dsimp only
      rw [noClass]
      rfl
    · simp only [partsOf, typeParts, known]
      cases definition <;> rfl
  | member noProperty noMethod plain =>
    obtain ⟨plainMember, plainPath⟩ := forall_mem_cons.mp plain
    have found := part_of_class (isClass _ rfl) plainMember
    rw [noProperty, noMethod] at found
    rw [followPath_of_ok found]
    exact isMiss_followPath_nothing plainPath
  | incomplete plain isProperty isIncomplete =>
    rcases part_of_property (isClass _ rfl) plain isProperty with
      ⟨fault, notEndless, failed⟩ | ⟨complete, _⟩
    · rw [followPath_of_error failed]
      exact notEndless
    · exact absurd isIncomplete (not_or.mpr complete)
  | @property definition member _ property _ plain isProperty foreign =>
    have isKnown : before.property? index member = some property := by
      rw [property?, isClass _ rfl]
      exact isProperty
    rcases part_of_property (isClass _ rfl) plain isProperty with
      ⟨fault, notEndless, failed⟩ | ⟨_, found⟩
    · rw [followPath_of_error failed]
      exact notEndless
    · rw [followPath_of_ok found]
      refine isMiss_followPath_foreign foreign rfl ?_
      rw [partsOf, isKnown]
      rfl
  | @method definition member _ method _ plain noProperty isMethod foreign =>
    have isKnown : before.method? index member = some method := by
      rw [method?, isClass _ rfl]
      exact isMethod
    have found := part_of_class (isClass _ rfl) plain
    rw [noProperty, isMethod] at found
    rw [followPath_of_ok found]
    refine isMiss_followPath_foreign foreign rfl ?_
    rw [partsOf, isKnown]
    rfl

/-- What a folder lacks is not found behind it, whatever has been loaded before. -/
theorem FolderLacks.isMiss_followPath (lacks : catalog.FolderLacks module path) {number : Nat}
    {folder : Folder} (coherent : before.Coherent)
    (sameTarget : ∀ name, before.target name = catalog.target name)
    (loaded : before.folder? number = some folder) (package : folder.package = module) :
    IsMiss (followPath parent (.entity (.folder number)) path before).1 := by
  induction lacks generalizing before number folder parent with
  | member free leads plain =>
    rw [← sameTarget, ← package] at leads
    have asked := memberOfFolder_of_nothing coherent loaded free.notOwn leads
    rw [followPath_of_ok ((part_of_folder free).trans asked)]
    exact isMiss_followPath_nothing plain
  | unreadable free leads failed failure =>
    rw [← sameTarget, ← package] at leads
    obtain ⟨after, asked⟩ := memberOfFolder_of_failed coherent loaded free.notOwn leads failed
    rw [followPath_of_error ((part_of_folder free).trans asked)]
    exact failure.1
  | definition free leads read lacks =>
    rw [← sameTarget, ← package] at leads
    obtain ⟨index, after, asked, known, _⟩ :=
      memberOfFolder_of_read coherent loaded free.notOwn leads read
    rw [followPath_of_ok ((part_of_folder free).trans asked)]
    exact lacks.isMiss_followPath known
  | @folder _ name _ _ _ free leads _ ih =>
    rw [← sameTarget, ← package] at leads
    obtain ⟨other, after, asked, modules⟩ :=
      memberOfFolder_of_folder coherent loaded free.notOwn leads
    have reached := memberOfFolder_moves.reaches asked
    have coherentAfter := reached.coherent coherent
    have known := (modules _).trans (if_pos rfl)
    obtain ⟨inner, isInner, innerPackage⟩ := coherentAfter.registered _ _ known
    rw [followPath_of_ok ((part_of_folder free).trans asked)]
    refine ih coherentAfter (fun name => ?_) isInner (innerPackage.trans (by rw [package]))
    rw [reached.target_eq, sameTarget]

theorem Lacks.misses (lacks : catalog.Lacks module path) (coherent : catalog.Coherent) :
    catalog.Misses module path := by
  -- A module that is no folder is not registered.
  have unknown : (∀ last folder, catalog.target module ≠ .folder last folder) →
      catalog.modules.get? module = none := by
    intro noFolder
    refine Option.eq_none_iff_forall_ne_some.mpr fun number known => ?_
    obtain ⟨folder, loaded, package⟩ := coherent.registered module number known
    exact noFolder _ _ (package ▸ coherent.placed number folder loaded)
  cases lacks with
  | nothing leads =>
    have unregistered := unknown (by simp [leads])
    rw [Misses, lookUp, bind_of_ok (load_of_nothing leads), get_bind, unregistered]
    exact Fault.noConfusion
  | folder leads lacks =>
    obtain ⟨number, after, loaded, modules⟩ := load_of_folder leads
    have reached := load_moves.reaches loaded
    have known := (modules module).trans (if_pos rfl)
    obtain ⟨entered, isEntered, package⟩ :=
      (reached.coherent coherent).registered module number known
    rw [Misses, lookUp, bind_of_ok loaded, get_bind, known]
    exact lacks.isMiss_followPath (reached.coherent coherent) reached.target_eq isEntered package
  | @file reading leads failure =>
    cases result : reading.result with
    | error fault =>
      rw [Misses, lookUp, bind_of_error (load_of_error leads result)]
      exact (failure fault result).1
    | ok definition =>
      have unregistered := unknown (by simp [leads])
      rw [Misses, lookUp, bind_of_ok (load_of_ok leads result), get_bind]
      dsimp only [addDefinition]
      rw [unregistered]
      exact Fault.noConfusion

end

end Catalog

def Catalog.warned (catalog : Catalog) (text : Text) : Catalog :=
  { catalog with notices := catalog.notices ++ [⟨.warning, text⟩] }

namespace Page

variable (settings : PageSettings)

def placeOf (document module : Text) : Text × Text :=
  let folder := sourceFolder settings document
  if module == EntryName.wholeFolder then Path.split folder else (folder, module)

/-- The catalog as it is set up for an entry in a module. -/
def setUp (document module : Text) (catalog : Catalog) : Catalog :=
  { catalog with
    root := (placeOf settings document module).1
    encoding := settings.encoding
    forPages := true }

def placed (document : Text) (name : EntryName) : EntryName :=
  { name with module := (placeOf settings document name.module).2 }

section

variable {settings : PageSettings} {document : Text} {sort : EntrySort} {asked : EntryName}
  {state : PageState} {after : Catalog}

private theorem enterFolder_eq (settings : PageSettings) (document : Text) (name : EntryName)
    (state : PageState) :
    enterFolder settings document name state = (.ok (placed settings document name),
      { state with catalog := setUp settings document name.module state.catalog }) :=
  rfl

theorem find?_eq : find? settings document sort asked state =
    let name := placed settings document asked
    let (outcome, after) := lookUp name (setUp settings document asked.module state.catalog)
    match outcome with
    | .ok (parent, value) =>
      if value.isPresent then (.ok (some { name, value, parent }), { state with catalog := after })
      else (.ok none, { state with catalog := after.warned (notFound sort name) })
    | .error fault =>
      if fault = .endless then (.error fault, { state with catalog := after })
      else (.ok none, { state with catalog := after.warned (notReadable sort name fault) }) := by
  have loaded := loads_eq (lookUp (placed settings document asked))
    { state with catalog := setUp settings document asked.module state.catalog }
  rw [find?, bind_of_ok (enterFolder_eq settings document asked state)]
  dsimp only
  rcases looked : lookUp (placed settings document asked)
    (setUp settings document asked.module state.catalog) with ⟨fault | ⟨parent, value⟩, after⟩
  all_goals rw [looked] at loaded
  · rw [Writes.tryCatch_of_error (bind_of_error loaded)]
    dsimp only
    split <;> rfl
  · dsimp only
    split
    all_goals
      rename_i present
      apply Writes.tryCatch_of_ok
      rw [bind_of_ok loaded]
      simp only [present]
      rfl

/-- What is missing is noticed, and all else that happens is loading. -/
theorem find?_of_misses (misses : (setUp settings document asked.module state.catalog).Misses
      (placeOf settings document asked.module).2 asked.path) :
    ∃ (after : Catalog) (text : Text), find? settings document sort asked state =
        (.ok none, { state with catalog := after.warned text }) ∧
      state.catalog.notices <+: after.notices := by
  have miss : Catalog.IsMiss (lookUp (placed settings document asked)
    (setUp settings document asked.module state.catalog)).1 := misses
  rw [find?_eq]
  dsimp only
  rcases looked : lookUp (placed settings document asked)
    (setUp settings document asked.module state.catalog) with ⟨fault | ⟨parent, value⟩, after⟩
  all_goals
    rw [looked] at miss
    have grows := (lookUp_moves.reaches looked).notices_grow
  · exact ⟨after, _, if_neg miss, grows⟩
  · exact ⟨after, _, if_neg (Bool.eq_false_iff.mp miss), grows⟩

theorem findEntry_of_missing {writing : Writing} {after : PageState}
    (missing : find? writing.settings writing.document sort asked state = (.ok none, after)) :
    findEntry writing sort asked state =
      (if sort = .method then .error .noAttributes else .ok none, after) := by
  rw [findEntry, bind_of_ok missing]
  by_cases isMethod : sort = .method
  · rw [isMethod]
    rfl
  · rw [if_neg isMethod, if_neg (by simp [isMethod])]
    rfl

end

theorem write_eq (writing : Writing) (request : EntryRequest) :
    write writing request = (do
      match ← readName writing.settings request.sort request.name with
      | none => warn (unknownModule request.name)
      | some name =>
        match ← findEntry writing request.sort name with
        | none => return
        | some finding => writeFinding writing request finding (writeTo writing 2)) :=
  rfl

section

variable {writing : Writing} {request : EntryRequest} {state : PageState} {name : EntryName}

theorem write_of_unresolved
    (read : readName writing.settings request.sort request.name state = (.ok none, state)) :
    write writing request state =
      (.ok (), { state with catalog := state.catalog.warned (unknownModule request.name) }) := by
  rw [write_eq, bind_of_ok read]
  rfl

theorem write_of_misses
    (read : readName writing.settings request.sort request.name state = (.ok (some name), state))
    (misses : (setUp writing.settings writing.document name.module state.catalog).Misses
      (placeOf writing.settings writing.document name.module).2 name.path) :
    ∃ (after : Catalog) (text : Text), write writing request state =
        (if request.sort = .method then .error .noAttributes else .ok (),
          { state with catalog := after.warned text }) ∧
      state.catalog.notices <+: after.notices := by
  obtain ⟨after, text, missing, kept⟩ := find?_of_misses misses
  refine ⟨after, text, ?_, kept⟩
  have found := findEntry_of_missing missing
  rw [write_eq, bind_of_ok read]
  by_cases isMethod : request.sort = .method
  · rw [if_pos isMethod] at found ⊢
    exact bind_of_error found
  · rw [if_neg isMethod] at found ⊢
    exact bind_of_ok found

/-- All that has been loaded comes from one source tree, with the settings of this page. -/
def Built (writing : Writing) (module : Text) (catalog : Catalog) : Prop :=
  ∃ tree : SourceTree,
    (setUp writing.settings writing.document module { tree, root := "" }).Reaches catalog

theorem Built.coherent {module : Text} {catalog : Catalog} (built : Built writing module catalog) :
    catalog.Coherent := by
  obtain ⟨tree, reaches⟩ := built
  exact reaches.coherent (Catalog.coherent_fresh tree _ _ _)

end

/-- An entry of any sort but a module, with a name that can be read, is left out with a warning if
the source tree lacks what it names: no line is written, and behind the notices before it stands a
new one.  It fails for a method whose module is known, and for nothing else. -/
theorem missing_targets_are_noticed (writing : Writing) (request : EntryRequest)
    (notModule : request.sort ≠ .module) {parts : SignatureParts}
    (valid : SignatureParts.ofGenerated? request.name = some parts) (state : PageState) :
    let resolved := EntryName.resolve request.sort state.scope writing.settings.directSearch parts
    (∀ module, resolved.1 = some module →
      let catalog := setUp writing.settings writing.document module state.catalog
      Built writing module catalog ∧
        catalog.Lacks (placeOf writing.settings writing.document module).2 resolved.2) →
    ∃ (catalog : Catalog) (notices : List Notice) (text : Text),
      write writing request state =
        (if request.sort = .method ∧ resolved.1.isSome then .error .noAttributes else .ok (),
          { state with catalog }) ∧
      catalog.notices = state.catalog.notices ++ notices ++ [⟨.warning, text⟩] := by
  intro resolved missing
  have read := readName_of_valid writing.settings notModule state valid
  cases isResolved : resolved.1 with
  | none =>
    rw [show (EntryName.resolve _ _ _ _).1 = none from isResolved] at read
    refine ⟨state.catalog.warned (unknownModule request.name), [],
      unknownModule request.name, ?_, ?_⟩
    · rw [write_of_unresolved read]
      simp
    · rw [append_nil]
      rfl
  | some module =>
    rw [show (EntryName.resolve _ _ _ _).1 = some module from isResolved] at read
    obtain ⟨built, lacks⟩ := missing module isResolved
    obtain ⟨after, text, written, notices, given⟩ :=
      write_of_misses read (lacks.misses built.coherent)
    refine ⟨after.warned text, notices, text, ?_, ?_⟩
    · rw [written]
      simp
    · rw [given]
      rfl

/-- A page about the folder with a source file in it. -/
def areaWriting : Writing where
  settings := { sourceFolder := "src" }
  options := {}
  document := "index"

/-- Nothing has been looked up yet. -/
def areaState : PageState where
  catalog := { tree := Catalog.areaTree, root := "" }

def areaCatalog : Catalog :=
  setUp areaWriting.settings areaWriting.document "geo" areaState.catalog

/-- The folder has no such file. -/
theorem missing_targets_are_noticed_volume :
    SignatureParts.ofGenerated? "geo.volume" =
      some { path := some "geo.", name := "volume", arguments := none, returned := none } ∧
    areaCatalog.Lacks "geo" ["volume"] ∧
    ∃ (catalog : Catalog) (notices : List Notice) (text : Text),
      write areaWriting { sort := .function, name := "geo.volume" } areaState =
        (.ok (), { areaState with catalog }) ∧
      catalog.notices = notices ++ [⟨.warning, text⟩] := by
  have valid : SignatureParts.ofGenerated? "geo.volume" =
      some { path := some "geo.", name := "volume", arguments := none, returned := none } := by
    rfl
  have lacks : areaCatalog.Lacks "geo" ["volume"] :=
    .folder rfl (.member ⟨by decide, by decide⟩ rfl (by simp))
  refine ⟨valid, lacks, ?_⟩
  obtain ⟨catalog, notices, text, written, given⟩ := missing_targets_are_noticed areaWriting
    { sort := .function, name := "geo.volume" } (by decide) valid areaState (by
      intro module isModule
      obtain rfl : "geo".toList = module := Option.some.inj isModule
      exact ⟨⟨Catalog.areaTree, .refl⟩, lacks⟩)
  exact ⟨catalog, _, text, written, given⟩

/-- The page of a method that is missing is not written. -/
theorem missing_method_fails :
    areaCatalog.Lacks "geo" ["Tank", "fill"] ∧
    (write areaWriting { sort := .method, name := "geo.Tank.fill" } areaState).1 =
      .error .noAttributes :=
  ⟨.folder rfl (.member ⟨by decide, by decide⟩ rfl (forall_mem_singleton.mpr rfl)), rfl⟩

end Page

end MatlabDocs
