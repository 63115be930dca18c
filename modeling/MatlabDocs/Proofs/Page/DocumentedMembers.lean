import MatlabDocs.Proofs.Catalog.Analyses
import MatlabDocs.Proofs.Page.MissingTargets

/-!
# The members that are described

When all members of a class are described, and undocumented ones are not asked for, a member is
described for a docstring of its own.  It may only be described without one if the path of the
class is the name of the module that is analyzed, or goes on behind it: then the docstring of
something else has the same namespace and name.  That docstring is never written.
-/

namespace MatlabDocs

open List
open Loads (bind_of_ok bind_of_error ok_of_bind get_bind)

namespace Catalog

variable {before after : Catalog}

theorem Step.analysesInPlace (step : Step before after) (inPlace : before.AnalysesInPlace) :
    after.AnalysesInPlace := by
  cases step with
  | change change => exact change.analysesInPlace inPlace
  | setup root encoding forPages => exact inPlace

theorem LeadsTo.analysesInPlace (leadsTo : before.LeadsTo after)
    (inPlace : before.AnalysesInPlace) : after.AnalysesInPlace := by
  induction leadsTo with
  | refl => exact inPlace
  | tail _ step ih => exact step.analysesInPlace ih

theorem analysesInPlace_fresh (tree : SourceTree) (root : Text) :
    ({ tree, root } : Catalog).AnalysesInPlace := by
  intro path analysis docs known
  cases known

/-- What a class has under a name, as far as it is a property or a method. -/
inductive IsMember (definition : ClassDef) (number : Nat) (name : Text) : Entity → Prop where
  | property {property : PropertyDef} :
      definition.properties.get? name = some property →
      IsMember definition number name (.property number name)
  | method {method : MethodDef} :
      definition.properties.get? name = none → definition.methods.get? name = some method →
      IsMember definition number name (.method number name)

section

variable {definition : ClassDef} {number : Nat} {name : Text} {entity : Entity}

private theorem isMember_of_askClass
    (asked : askClass number definition name before = (.ok (.entity entity), after)) :
    IsMember definition number name entity := by
  rw [askClass] at asked
  split at asked
  · cases asked
  split at asked
  · cases asked
  split at asked
  · cases asked
  split at asked
  · obtain ⟨_, _, _, isLast⟩ := ok_of_bind asked
    cases isLast
  cases isProperty : definition.properties.get? name with
  | some property =>
    rw [isProperty] at asked
    dsimp only at asked
    rcases propertyOf_cases number name property with ⟨part, failed⟩ | ⟨_, _, found⟩
    · rw [failed] at asked
      cases asked
    · rw [found] at asked
      cases asked
      exact .property isProperty
  | none =>
    rw [isProperty] at asked
    cases isMethod : definition.methods.get? name with
    | some method =>
      rw [isMethod] at asked
      cases asked
      exact .method isProperty isMethod
    | none =>
      rw [isMethod] at asked
      dsimp only at asked
      split at asked
      · obtain ⟨_, _, _, isLast⟩ := ok_of_bind asked
        cases isLast
      · cases asked

theorem isMember_of_partOrNothing (known : before.class? number = some definition)
    (found : partOrNothing (.entity (.definition number)) name before =
      (.ok (.entity entity), after)) : IsMember definition number name entity := by
  obtain ⟨value?, middle, isPart, isLast⟩ := ok_of_bind found
  rw [part?, get_bind] at isPart
  dsimp only at isPart
  rw [known] at isPart
  obtain ⟨value, last, asked, isSome⟩ := ok_of_bind isPart
  cases isSome
  cases isLast
  exact isMember_of_askClass asked

theorem class?_of_grows (grows : before.Grows after)
    (known : before.class? number = some definition) : after.class? number = some definition := by
  rw [class?] at known
  split at known
  · rename_i found
    cases known
    rw [class?, grows.definitions _ _ found]
  · cases known

theorem docstringOf_member (grows : before.Grows after)
    (known : before.class? number = some definition)
    (isMember : IsMember definition number name entity) :
    after.docstringOf (.entity entity) = before.docstringOf (.entity entity) := by
  have still := class?_of_grows grows known
  cases isMember with
  | property has => rw [docstringOf, docstringOf, property?, property?, known, still]
  | method has => rw [docstringOf, docstringOf, method?, method?, known, still]

end

end Catalog

namespace Page

section

open Writes

variable {settings : PageSettings} {options : EntryOptions} {wantAll analyzed : Bool}
  {name : Text} {value : Value} {before after : PageState}

theorem chooseMember_of_ok {member : PageMember} (noUndocumented : options.withUndocumented = false)
    (noSkips : settings.skipped = {})
    (run : chooseMember settings options wantAll analyzed name value before =
      (.ok (some member), after)) :
    member = ⟨name, value⟩ ∧ (isDocumented after.catalog value ∨ analyzed) := by
  rw [chooseMember_eq] at run
  split at run
  · obtain ⟨decided, rfl⟩ := Prod.mk.inj run
    obtain ⟨restriction?, -, isChosen⟩ := decision_of_ok noSkips decided
    split at isChosen
    · rename_i kept
      cases isChosen
      exact ⟨rfl, MemberTraits.documented_or_analyzed noUndocumented kept⟩
    · cases isChosen
  · cases run

variable {members : List (Text × Value)} {definition : ClassDef} {number : Nat} {entity : Entity}

theorem isMember_of_allMembers (known : before.catalog.class? number = some definition)
    (run : allMembers (.entity (.definition number)) before = (.ok members, after))
    (member : (name, .entity entity) ∈ members) :
    Catalog.IsMember definition number name entity := by
  obtain ⟨names, middle, namesRun, run⟩ := ok_of_bind run
  have namesMove := partNames_moves.leadsTo namesRun
  obtain ⟨other, _, first, last, reached, found, _⟩ := exists_of_mem_mapM
    (fun _ _ => partOrNothing_moves) run member
  obtain ⟨value, _, looked, isLast⟩ := ok_of_bind found
  cases isLast
  have still := Catalog.class?_of_grows (Catalog.LeadsTo.grows (namesMove.trans reached)) known
  exact Catalog.isMember_of_partOrNothing still (ok_of_loads looked)

private theorem mem_of_sortMembers {sorted : List (Text × Value)} {item : Text × Value}
    (run : sortMembers members = .ok sorted) (member : item ∈ sorted) : item ∈ members := by
  rw [sortMembers] at run
  split at run
  · cases run
    exact mem_mergeSort.mp member
  · cases run

variable {finding : Finding} {analysis : Text}

theorem isMember_of_membersOf {analysis : Option Text}
    (isClass : finding.value = .entity (.definition number))
    (known : before.catalog.class? number = some definition)
    (run : membersOf .classEntry options finding analysis true before = (.ok members, after))
    (member : (name, .entity entity) ∈ members) :
    Catalog.IsMember definition number name entity := by
  rw [membersOf, if_neg (by decide)] at run
  obtain ⟨docs, middle, docsRun, run⟩ := ok_of_bind run
  have still := Catalog.class?_of_grows (analyzedDocs_moves.leadsTo docsRun).grows known
  rw [if_pos rfl] at run
  split at run
  · obtain ⟨_, _, thrown, _⟩ := ok_of_bind run
    cases thrown
  · obtain ⟨found, last, foundRun, sorted⟩ := ok_of_bind run
    obtain ⟨isSorted, _⟩ := ok_of_lift sorted
    rw [isClass] at foundRun
    exact isMember_of_allMembers still foundRun (mem_of_sortMembers isSorted member)

theorem mem_orderEntries {order : MemberOrder} {tags : NameTable Nat} {owner : EntryName}
    {entries : List (EntrySort × Text)} {entry : EntrySort × Text} :
    entry ∈ orderEntries order tags owner entries ↔ entry ∈ entries := by
  cases order with
  | alphabetical => rfl
  | groupwise => exact mem_mergeSort
  | bySource => exact mem_mergeSort

private theorem analyzedDocs_of_ok {docs : Table (Text × Text) Value} {space : Text}
    (inPlace : before.catalog.AnalysesInPlace)
    (run : analyzedDocs (some analysis) before = (.ok docs, after))
    (contained : docs.contains (space, name)) :
    ∃ analyzed, after.catalog.analyses.get? analysis = some analyzed ∧
      IsSpaceOf analyzed.module space := by
  obtain ⟨found, _, foundRun, last⟩ := ok_of_bind run
  cases last
  exact Catalog.memberDocs_belong inPlace (ok_of_loads foundRun) contained

/-- A member is chosen for its docstring, or for one that the analysis has in its place. -/
theorem chooseMembers_of_ok {chosen : List PageMember} {member : PageMember}
    (inPlace : before.catalog.AnalysesInPlace) (noUndocumented : options.withUndocumented = false)
    (noSkips : settings.skipped = {})
    (run : chooseMembers settings options finding (some analysis) wantAll members before =
      (.ok chosen, after))
    (isChosen : member ∈ chosen) :
    (member.name, member.value) ∈ members ∧
      ∃ looked : Catalog, before.catalog.LeadsTo looked ∧ looked.LeadsTo after.catalog ∧
        (isDocumented looked member.value ∨
          ∃ analyzed, after.catalog.analyses.get? analysis = some analyzed ∧
            IsSpaceOf analyzed.module (EntryName.dotted finding.name.path)) := by
  obtain ⟨docs, middle, docsRun, run⟩ := ok_of_bind run
  obtain ⟨results, _, resultsRun, last⟩ := ok_of_bind run
  cases last
  obtain ⟨_, inResults, rfl⟩ := mem_filterMap.mp isChosen
  have moves : ∀ (item : Text × Value) (start : Catalog), (chooseMember settings options wantAll
      (docs.contains (EntryName.dotted finding.name.path, item.1)) item.1 item.2).Moves start :=
    fun _ _ => chooseMember_moves
  have docsMove := analyzedDocs_moves.leadsTo docsRun
  have resultsMove := (Moves.mapM moves members).leadsTo resultsRun
  obtain ⟨⟨name, value⟩, isMember, first, last, reached, looked, reaches⟩ :=
    exists_of_mem_mapM moves resultsRun inResults
  have lookedMove := (moves (name, value) _).leadsTo looked
  obtain ⟨rfl, kept⟩ := chooseMember_of_ok noUndocumented noSkips looked
  refine ⟨isMember, last.catalog, (docsMove.trans reached).trans lookedMove, reaches, ?_⟩
  rcases kept with documented | analyzed
  · exact .inl documented
  · obtain ⟨analysis, known, isSpace⟩ := analyzedDocs_of_ok inPlace docsRun analyzed
    obtain ⟨still, isStill, sameModule⟩ :=
      Catalog.LeadsTo.keepsModules resultsMove _ analysis known
    exact .inr ⟨still, isStill, sameModule ▸ isSpace⟩

private theorem exists_entity_of_ofMember? {catalog : Catalog} {sort : EntrySort}
    (isSort : EntrySort.ofMember? catalog value = some sort) :
    ∃ entity, value = .entity entity := by
  cases value with
  | entity entity => exact ⟨entity, rfl⟩
  | _ => cases isSort

theorem memberEntries_of_ok {writing : Writing} {request : EntryRequest}
    {entries : List (EntrySort × Text)} {sort : EntrySort}
    (inPlace : before.catalog.AnalysesInPlace)
    (isClass : finding.value = .entity (.definition number))
    (known : before.catalog.class? number = some definition) (ofClass : request.sort = .classEntry)
    (wantAll : request.allMembers ∨ writing.options.members = .all)
    (noUndocumented : writing.options.withUndocumented = false)
    (noSkips : writing.settings.skipped = {})
    (run : memberEntries writing request finding analysis before = (.ok entries, after))
    (member : (sort, name) ∈ entries) :
    ∃ entity, Catalog.IsMember definition number name entity ∧
      EntrySort.ofMember? after.catalog (.entity entity) = some sort ∧
      (isDocumented after.catalog (.entity entity) ∨
        ∃ analyzed, after.catalog.analyses.get? analysis = some analyzed ∧
          IsSpaceOf analyzed.module (EntryName.dotted finding.name.path)) := by
  have all : (request.allMembers || writing.options.withInherited ||
      writing.options.members == .all) = true := by
    rcases wantAll with all | all
    · simp [all]
    · simp [all]
  rw [memberEntries] at run
  simp only [all, ofClass] at run
  obtain ⟨members, listed, membersRun, run⟩ := ok_of_bind run
  obtain ⟨chosen, _, chosenRun, run⟩ := ok_of_bind run
  obtain ⟨_, _, isCatalog, last⟩ := ok_of_bind run
  cases isCatalog
  cases last
  have membersMove := membersOf_moves.leadsTo membersRun
  obtain ⟨⟨_, value⟩, isChosen, isEntry⟩ := mem_filterMap.mp (mem_orderEntries.mp member)
  obtain ⟨_, isSort, same⟩ := Option.map_eq_some_iff.mp isEntry
  cases same
  obtain ⟨entity, rfl⟩ := exists_entity_of_ofMember? isSort
  obtain ⟨isWanted, looked, reached, reaches, kept⟩ := chooseMembers_of_ok
    (membersMove.analysesInPlace inPlace) noUndocumented noSkips chosenRun isChosen
  have isMember :=
    isMember_of_membersOf isClass known membersRun (mem_of_mem_filter isWanted)
  refine ⟨entity, isMember, isSort, kept.imp ?_ id⟩
  intro documented
  have still := Catalog.class?_of_grows (Catalog.LeadsTo.grows (membersMove.trans reached)) known
  rwa [isDocumented, Catalog.docstringOf_member reaches.grows still isMember]

end

def ownLines (catalog : Catalog) (entity : Entity) : List Text :=
  ((EntryName.present? (catalog.docstringOf (.entity entity))).map Docstring.prepare).getD []

section

open Catalog

theorem rest_suffix_of_find? {word : Text} {lines : List Text} {found : DocstringSignature}
    (isFound : DocstringSignature.find? word lines = some found) : found.rest <:+ lines := by
  cases lines with
  | nil => cases isFound
  | cons first rest =>
    rw [DocstringSignature.find?] at isFound
    split at isFound
    · split at isFound
      · cases isFound
        exact (dropWhile_suffix _).trans (suffix_cons first rest)
      · cases isFound
    · cases isFound

variable {catalog : Catalog} {definition : ClassDef} {number : Nat} {name : Text} {entity : Entity}
  (isMember : IsMember definition number name entity)
include isMember

private theorem lookup_partsOf_doc : (catalog.partsOf entity).lookup "__doc__".toList = none := by
  cases isMember with
  | property _ =>
    rw [partsOf]
    cases catalog.property? number name <;> rfl
  | method _ =>
    rw [partsOf]
    cases catalog.method? number name <;> rfl

private theorem docstring?_of_member :
    docstring? (.entity entity) catalog =
      (.ok (EntryName.present? (catalog.docstringOf (.entity entity))), catalog) := by
  have fixed : catalog.fixedPart? entity "__doc__" =
      some (.ofText? (catalog.docstringOf (.entity entity))) := by
    rw [fixedPart?, lookup_append, lookup_partsOf_doc isMember]
    rfl
  have found : part? (.entity entity) "__doc__" catalog =
      (.ok (some (.ofText? (catalog.docstringOf (.entity entity)))), catalog) := by
    rw [← fixed]
    cases isMember with
    | property _ => rfl
    | method _ => rfl
  have looked : partOrNothing (.entity entity) "__doc__" catalog =
      (.ok (.ofText? (catalog.docstringOf (.entity entity))), catalog) :=
    bind_of_ok found
  rw [docstring?, bind_of_ok looked]
  rcases catalog.docstringOf (.entity entity) with _ | _ | ⟨first, rest⟩ <;> rfl

theorem docLines?_of_member :
    docLines? (.entity entity) catalog =
      (.ok ((EntryName.present? (catalog.docstringOf (.entity entity))).map Docstring.prepare),
        catalog) :=
  bind_of_ok (docstring?_of_member isMember)

theorem ownLines_of_grows {earlier later : Catalog} (grows : earlier.Grows later)
    (known : earlier.class? number = some definition) :
    ownLines later entity = ownLines earlier entity := by
  rw [ownLines, ownLines, docstringOf_member grows known isMember]

variable {settings : PageSettings} {sort : EntrySort} {finding : Finding} {before after : PageState}
  {rest : Option (List Text)} {lines : List Text} {last : Catalog}
  (isValue : finding.value = .entity entity)
include isValue

private theorem signatureFromDocstring_of_member {found : DocstringSignature}
    (run : signatureFromDocstring settings finding catalog = (.ok (some found), last)) :
    found.rest <:+ ownLines catalog entity := by
  rw [signatureFromDocstring] at run
  split at run
  · rw [isValue, bind_of_ok (docLines?_of_member isMember)] at run
    rw [ownLines]
    generalize (EntryName.present? (catalog.docstringOf (.entity entity))).map
      Docstring.prepare = lines? at run ⊢
    cases lines? with
    | none => cases run
    | some lines =>
      cases isLast : finding.name.path.getLast? with
      | none =>
        rw [isLast] at run
        cases run
      | some word =>
        rw [isLast] at run
        exact rest_suffix_of_find? (Except.ok.inj (congrArg Prod.fst run))
  · cases run

variable (notClass : sort ≠ .classEntry)
include notClass

/-- The lines that are left behind the signature of a member are lines of its own docstring. -/
theorem signatureOf_of_member {signature : Text}
    (run : signatureOf settings sort finding before = (.ok (signature, rest), after))
    (isRest : rest = some lines) : lines <:+ ownLines before.catalog entity := by
  have written : ∀ arguments returned middle,
      ((do return (← writtenSignature sort finding arguments returned, none)) :
        Writes (Text × Option (List Text))) middle ≠ (.ok (signature, rest), after) := by
    intro arguments returned middle run
    obtain ⟨_, _, _, last⟩ := ok_of_bind run
    cases last
    cases isRest
  unfold signatureOf at run
  cases sort with
  | classEntry => exact absurd rfl notClass
  | function | method =>
    obtain ⟨found?, middle, looked, run⟩ := ok_of_bind run
    cases found? with
    | none => exact absurd run (written _ _ _)
    | some found =>
      obtain ⟨_, _, _, last⟩ := ok_of_bind run
      cases last
      cases isRest
      exact signatureFromDocstring_of_member isMember isValue (ok_of_loads looked)
  | exception => cases run
  | _ => exact absurd run (written _ _ _)

theorem docstringLines_of_member
    (isOwn : ∀ lines, rest = some lines → lines <:+ ownLines catalog entity)
    (run : docstringLines settings sort finding rest catalog = (.ok lines, last)) :
    lines <:+ ownLines catalog entity := by
  unfold docstringLines at run
  split at run
  · exact absurd rfl notClass
  · cases run
  · cases run
    exact isOwn _ rfl
  · rw [isValue, bind_of_ok (docLines?_of_member isMember)] at run
    cases run
    exact suffix_rfl

omit isMember isValue notClass

/-- A line as it stands in an entry with an indentation. -/
def indented (indent : Text) (line : PageLine) : PageLine :=
  ⟨if line.text.all isBlank then [] else indent ++ line.text, line.source⟩

private theorem addLines_eq (indent : Text) (lines : List PageLine) (state : PageState) :
    addLines indent lines state =
      (.ok (), { state with lines := state.lines ++ lines.map (indented indent) }) := by
  induction lines generalizing state with
  | nil =>
    rw [map_nil, append_nil]
    rfl
  | cons line lines ih =>
    have added : addLine indent line.text line.source state =
        (.ok (), { state with lines := state.lines ++ [indented indent line] }) := rfl
    show (addLine indent line.text line.source >>= fun _ => addLines indent lines) state = _
    rw [bind_of_ok added, ih]
    simp

include isMember isValue notClass

/-- Whatever comes of it, the content of a member is made of lines of its own docstring. -/
theorem addContent_of_member {analysis : Option Text} {indent : Text}
    (known : before.catalog.class? number = some definition)
    (isOwn : ∀ lines, rest = some lines → lines <:+ ownLines before.catalog entity) :
    ∃ lines, lines <:+ ownLines before.catalog entity ∧
      (addContent settings sort finding analysis indent rest [] before).2.lines =
        before.lines ++
          lines.map fun line => indented indent ⟨line, docstringSource analysis finding⟩ := by
  have unchanged : before.lines = before.lines ++
      [].map fun line => indented indent ⟨line, docstringSource analysis finding⟩ :=
    (append_nil _).symm
  have isCatalog : Page.catalog before = (.ok before.catalog, before) := rfl
  rw [addContent, bind_of_ok isCatalog, if_neg (by simp [notClass])]
  have analyzedRun := loads_eq (isAnalyzed analysis finding) before
  rcases analyzed : isAnalyzed analysis finding before.catalog with ⟨fault | _ | _, middle⟩
  · rw [analyzed] at analyzedRun
    rw [bind_of_error analyzedRun]
    exact ⟨[], nil_suffix, unchanged⟩
  · rw [analyzed] at analyzedRun
    have same := ownLines_of_grows isMember (isAnalyzed_moves.reaches analyzed).grows known
    rw [bind_of_ok analyzedRun]
    dsimp only
    rw [if_neg (by decide)]
    have linesRun := loads_eq (docstringLines settings sort finding rest)
      { before with catalog := middle }
    rcases found : docstringLines settings sort finding rest middle with ⟨fault | lines, last⟩
    · rw [found] at linesRun
      rw [bind_of_error linesRun]
      exact ⟨[], nil_suffix, unchanged⟩
    · rw [found] at linesRun
      rw [bind_of_ok linesRun, bind_of_ok (addLines_eq _ _ _), addLines_eq]
      refine ⟨lines, ?_, by simp [Function.comp_def]⟩
      rw [← same]
      exact docstringLines_of_member isMember isValue notClass (same ▸ isOwn) found
  · rw [analyzed] at analyzedRun
    rw [bind_of_ok analyzedRun]
    dsimp only
    rw [if_pos rfl, addLines_eq]
    exact ⟨[], nil_suffix, rfl⟩

end

theorem exists_docstring_of_isDocumented {catalog : Catalog} {value : Value}
    (documented : isDocumented catalog value) :
    ∃ docstring, docstring ≠ [] ∧ catalog.docstringOf value = some docstring := by
  rw [isDocumented] at documented
  rcases given : catalog.docstringOf value with _ | _ | ⟨first, rest⟩
  · rw [given] at documented
    cases documented
  · rw [given] at documented
    cases documented
  · exact ⟨first :: rest, cons_ne_nil first rest, rfl⟩

private theorem ne_classEntry_of_member {catalog : Catalog} {definition : ClassDef} {number : Nat}
    {name : Text} {entity : Entity} {sort : EntrySort}
    (isMember : Catalog.IsMember definition number name entity)
    (isSort : EntrySort.ofMember? catalog (.entity entity) = some sort) : sort ≠ .classEntry := by
  rintro rfl
  cases isMember with
  | property _ =>
    obtain ⟨property, _, isClass⟩ := Option.map_eq_some_iff.mp isSort
    split at isClass
    · split at isClass <;> cases isClass
    · cases isClass
  | method _ => cases isSort

/-- Let all members of a class be described, whatever entries were written before about the source
tree, and neither undocumented members be asked for nor members be skipped.  Then each entry is
about a property or a method of the class.  This has a docstring of its own that is not empty,
unless the path of the class is a namespace of the module that is analyzed.  In any case, what is
written as its content are lines of its own docstring. -/
theorem described_members_are_documented (tree : SourceTree) (root : Text)
    (earlier : List (Writing × EntryRequest)) (writing : Writing) (request : EntryRequest)
    (finding : Finding) (analysis : Text) (state after : PageState) (number : Nat)
    (definition : ClassDef) (entries : List (EntrySort × Text))
    (arises : (writeAll earlier { catalog := { tree, root } }).catalog.LeadsTo state.catalog)
    (ofClass : request.sort = .classEntry)
    (isClass : finding.value = .entity (.definition number))
    (known : state.catalog.class? number = some definition)
    (wantAll : request.allMembers ∨ writing.options.members = .all)
    (noUndocumented : writing.options.withUndocumented = false)
    (noSkips : writing.settings.skipped = {})
    (described : memberEntries writing request finding analysis state = (.ok entries, after)) :
    ∀ sort name, (sort, name) ∈ entries →
      ∃ entity, Catalog.IsMember definition number name entity ∧
        ((∃ docstring, docstring ≠ [] ∧
            after.catalog.docstringOf (.entity entity) = some docstring) ∨
          ∃ analyzed, after.catalog.analyses.get? analysis = some analyzed ∧
            IsSpaceOf analyzed.module (EntryName.dotted finding.name.path)) ∧
        ∀ (member : Finding) (source : Option Text) (indent signature : Text)
          (rest : Option (List Text)) (before middle later : PageState),
          member.value = .entity entity → after.catalog.LeadsTo before.catalog →
          signatureOf writing.settings sort member before = (.ok (signature, rest), middle) →
          middle.catalog.LeadsTo later.catalog →
          ∃ lines, lines <:+ ownLines after.catalog entity ∧
            (addContent writing.settings sort member source indent rest [] later).2.lines =
              later.lines ++
                lines.map fun line => indented indent ⟨line, docstringSource source member⟩ := by
  intro sort name isEntry
  have inPlace := Catalog.LeadsTo.analysesInPlace
    ((leadsTo_writeAll earlier { catalog := { tree, root } }).trans arises)
    (Catalog.analysesInPlace_fresh tree root)
  obtain ⟨entity, isMember, isSort, kept⟩ := memberEntries_of_ok inPlace isClass known ofClass
    wantAll noUndocumented noSkips described isEntry
  refine ⟨entity, isMember, kept.imp exists_docstring_of_isDocumented id, ?_⟩
  intro member source indent signature rest before middle later isValue reached signed reaches
  have notClass := ne_classEntry_of_member isMember isSort
  have describedMove := memberEntries_moves.leadsTo described
  have signedMove := signatureOf_moves.leadsTo signed
  -- The docstring of the member is the same all the time.
  have knownAfter := Catalog.class?_of_grows (Catalog.LeadsTo.grows describedMove) known
  have toLater : after.catalog.LeadsTo later.catalog := (reached.trans signedMove).trans reaches
  have sameBefore := ownLines_of_grows isMember (Catalog.LeadsTo.grows reached) knownAfter
  have sameLater := ownLines_of_grows isMember toLater.grows knownAfter
  have isOwn : ∀ lines, rest = some lines → lines <:+ ownLines later.catalog entity := by
    intro lines isRest
    rw [sameLater, ← sameBefore]
    exact signatureOf_of_member isMember isValue notClass signed isRest
  rw [← sameLater]
  exact addContent_of_member isMember isValue notClass
    (Catalog.class?_of_grows toLater.grows knownAfter) isOwn

/-! ### What the entry of a member finds -/

section

variable {settings : PageSettings} {document : Text} {sort : EntrySort} {asked : EntryName}
  {finding : Finding} {state found : PageState}

theorem find?_of_findEntry {writing : Writing}
    (isFound : findEntry writing sort asked state = (.ok (some finding), found)) :
    find? writing.settings writing.document sort asked state = (.ok (some finding), found) := by
  obtain ⟨finding?, middle, isFirst, rest⟩ := ok_of_bind isFound
  cases finding? with
  | none => by_cases isMethod : sort = .method <;> simp [isMethod] at rest <;> cases rest
  | some other =>
    rw [Option.isNone_some, Bool.and_false] at rest
    cases rest
    exact isFirst

theorem lookUp_of_find?
    (isFound : find? settings document sort asked state = (.ok (some finding), found)) :
    finding.name = placed settings document asked ∧
      lookUp finding.name (setUp settings document asked.module state.catalog) =
        (.ok (finding.parent, finding.value), found.catalog) := by
  rw [find?_eq] at isFound
  dsimp only at isFound
  rcases looked : lookUp (placed settings document asked)
    (setUp settings document asked.module state.catalog) with ⟨fault | ⟨parent, value⟩, after⟩
  all_goals
    rw [looked] at isFound
    dsimp only at isFound
    split at isFound
    all_goals cases isFound
  exact ⟨rfl, looked⟩

theorem followPath_of_lookUp {name : EntryName} {before after : Catalog} {parent value : Value}
    (looked : lookUp name before = (.ok (parent, value), after)) :
    ∃ folder middle, before.Reaches middle ∧ middle.modules.get? name.module = some folder ∧
      followPath .nothing (.entity (.folder folder)) name.path middle =
        (.ok (parent, value), after) := by
  rw [lookUp] at looked
  obtain ⟨_, middle, loaded, looked⟩ := ok_of_bind looked
  rw [get_bind] at looked
  cases known : middle.modules.get? name.module with
  | none =>
    rw [known] at looked
    cases looked
  | some folder =>
    rw [known] at looked
    exact ⟨folder, middle, Catalog.load_moves.reaches loaded, known, looked⟩

/-- A member of a class that was found before is looked up in the same class. -/
private theorem value_of_lookUp {name other : EntryName} {className member : Text}
    {before middle later after : Catalog} {parent owner value : Value} {number : Nat}
    {definition : ClassDef} {entity : Entity} (isPath : name.path = [className])
    (looked : lookUp name before = (.ok (parent, .entity (.definition number)), middle))
    (grows : middle.Grows later) (known : later.class? number = some definition)
    (isMember : Catalog.IsMember definition number member entity)
    (plain : Catalog.IsPlainName member) (sameModule : other.module = name.module)
    (isOther : other.path = [className, member])
    (again : lookUp other later = (.ok (owner, value), after)) : value = .entity entity := by
  obtain ⟨folder, first, _, isFolder, followed⟩ := followPath_of_lookUp looked
  rw [isPath, followPath] at followed
  obtain ⟨_, _, asked, ended⟩ := ok_of_bind followed
  cases ended
  rw [Catalog.part_of_asked rfl] at asked
  obtain ⟨notList, free, entry, loaded, isEntry⟩ := Catalog.member_of_askFolder asked
  obtain ⟨otherFolder, start, reaches, isOtherFolder, followedAgain⟩ := followPath_of_lookUp again
  have growsStart := grows.trans reaches.grows
  have growsFirst := (Catalog.askFolder_moves.reaches asked).grows.trans growsStart
  rw [sameModule, growsFirst.modules _ _ isFolder] at isOtherFolder
  cases isOtherFolder
  obtain ⟨grown, isGrown, growsFolder⟩ := growsStart.folders folder entry loaded
  have askedAgain := Catalog.askFolder_of_known notList free isGrown
    (growsFolder.members className _ isEntry)
  rw [isOther, Catalog.followPath_of_ok ((Catalog.part_of_asked rfl).trans askedAgain)]
    at followedAgain
  have stillKnown := Catalog.class?_of_grows reaches.grows known
  cases isMember with
  | property isProperty =>
    rcases Catalog.part_of_property stillKnown plain isProperty with ⟨_, _, failed⟩ | ⟨_, isPart⟩
    · rw [Catalog.followPath_of_error failed] at followedAgain
      cases followedAgain
    · rw [Catalog.followPath_of_ok isPart] at followedAgain
      cases followedAgain
      rfl
  | method noProperty isMethod =>
    have isPart := Catalog.part_of_class stillKnown plain
    rw [noProperty, isMethod] at isPart
    rw [Catalog.followPath_of_ok isPart] at followedAgain
    cases followedAgain
    rfl

/-- Whatever the entry of a member of a class finds is the member, once the class has been found in
its module. -/
theorem entry_finds_member (writing : Writing) (module : ModuleName) (className member : PathPart)
    {before : PageState} {classSort : EntrySort} {number : Nat} {definition : ClassDef}
    {entity : Entity}
    (isFound : findEntry writing classSort asked state = (.ok (some finding), found))
    (isModule : finding.name.module = module.text) (isPath : finding.name.path = [className.text])
    (isClass : finding.value = .entity (.definition number))
    (reached : found.catalog.LeadsTo before.catalog)
    (known : before.catalog.class? number = some definition)
    (isMember : Catalog.IsMember definition number member.text entity)
    (plain : Catalog.IsPlainName member.text) (notModule : sort ≠ .module) :
    ∃ name, readName writing.settings sort (EntryName.ofMember finding.name.module
        finding.name.path member.text) before = (.ok (some name), before) ∧
      ∀ next after, findEntry writing sort name before = (.ok (some next), after) →
        next.value = .entity entity := by
  have isRead := readName_ofMember writing.settings notModule before module [className] member
  rw [isModule, isPath]
  refine ⟨_, isRead, fun next after isNext => ?_⟩
  obtain ⟨_, looked⟩ := lookUp_of_find? (find?_of_findEntry isFound)
  obtain ⟨isName, again⟩ := lookUp_of_find? (find?_of_findEntry isNext)
  rw [isClass] at looked
  have grows : found.catalog.Grows
      (setUp writing.settings writing.document module.text before.catalog) :=
    reached.grows.trans (.of_eq rfl rfl rfl)
  have notWhole : module.text ≠ EntryName.wholeFolder := by
    intro same
    have isCharacter := module.isPathCharacter_of_mem '*' (by rw [same]; decide)
    exact absurd isCharacter (by decide)
  have sameModule : next.name.module = finding.name.module := by
    rw [isName, isModule, placed, placeOf]
    simp [notWhole]
  exact value_of_lookUp isPath looked grows known isMember plain sameModule
    (congrArg EntryName.path isName) again

end

/-- A class with a documented method, and a documented class with the name of its folder, whose
method of the same name is not documented. -/
def valveTree : SourceTree where
  folders := [["src"], ["src", "geo"], ["src", "Valve"]]
  files := ⟨[(["src", "geo", "Tank.m"], .source
      "classdef Tank\nmethods\nfunction fill(tank)\n% Fills it.\nend\nend\nend\n".toUTF8.toList),
    (["src", "Valve", "Valve.m"], .source
      ("classdef Valve\n% Turns.\nmethods\nfunction valve = Valve()\nend\nend\n" ++
        "end\n").toUTF8.toList)]⟩

/-- The class has been found in its module, and the module is analyzed. -/
def stateOf (module name : Text) : PageState where
  catalog := ({ tree := valveTree, root := "src" } : Catalog).after
    [.load module, .ask (.folder 0) name, .analysis module]

def findingOf (module name : Text) : Finding where
  name := { module, path := [name], fullName := EntryName.join module [name] }
  value := .entity (.definition 0)

def membersWriting : Writing where
  settings := { sourceFolder := "src" }
  options := { members := .all }
  document := "index"

def entriesOf (module name : Text) : Except Fault (List (EntrySort × Text)) × PageState :=
  memberEntries membersWriting { sort := .classEntry, name := EntryName.join module [name] }
    (findingOf module name) (Path.join "src" module) (stateOf module name)

theorem leadsTo_stateOf (module name : Text) :
    ({ tree := valveTree, root := "src" } : Catalog).LeadsTo (stateOf module name).catalog :=
  (Catalog.reaches_after _ _).leadsTo

/-- The documented method is described. -/
theorem described_members_are_documented_tank :
    ∃ definition after, (stateOf "geo" "Tank").catalog.class? 0 = some definition ∧
      entriesOf "geo" "Tank" = (.ok [(.method, "fill")], after) ∧
      ∃ entity, Catalog.IsMember definition 0 "fill" entity ∧
        ∃ docstring, docstring ≠ [] ∧
          after.catalog.docstringOf (.entity entity) = some docstring := by
  have isClass : ((stateOf "geo" "Tank").catalog.class? 0).isSome = true := by decide +kernel
  have described : (entriesOf "geo" "Tank").1.toOption = some [(.method, "fill".toList)] := by
    decide +kernel
  have analyzed : ((entriesOf "geo" "Tank").2.catalog.analyses.get? "src/geo").map
      Analysis.module = some "geo".toList := by
    decide +kernel
  obtain ⟨definition, known⟩ := Option.isSome_iff_exists.mp isClass
  rcases run : entriesOf "geo" "Tank" with ⟨fault | entries, after⟩
  all_goals rw [run] at described analyzed
  · cases described
  · cases described
    refine ⟨definition, after, known, rfl, ?_⟩
    obtain ⟨entity, isMember, documented | ⟨analysis, isAnalysis, isSpace⟩, _⟩ :=
      described_members_are_documented valveTree "src" [] membersWriting
        { sort := .classEntry, name := "geo.Tank" } (findingOf "geo" "Tank") "src/geo"
        (stateOf "geo" "Tank") after 0 definition [(.method, "fill")] (leadsTo_stateOf _ _) rfl rfl
        known (.inr rfl) rfl rfl run .method "fill" (by decide)
    · exact ⟨entity, isMember, documented⟩
    · rw [isAnalysis] at analyzed
      rw [IsSpaceOf, Option.some.inj analyzed] at isSpace
      rcases isSpace with isModule | ⟨name, isInside⟩
      · exact absurd isModule (by decide)
      · cases isInside

/-- The undocumented method is described, since its class has its name and namespace. -/
theorem undocumented_member_described :
    ({ tree := valveTree, root := "src" } : Catalog).LeadsTo (stateOf "Valve" "Valve").catalog ∧
    (entriesOf "Valve" "Valve").1.toOption = some [(.method, "Valve".toList)] ∧
    (entriesOf "Valve" "Valve").2.catalog.docstringOf (.entity (.method 0 "Valve")) = some [] :=
  ⟨leadsTo_stateOf _ _, by decide +kernel, by decide +kernel⟩

end Page

end MatlabDocs
