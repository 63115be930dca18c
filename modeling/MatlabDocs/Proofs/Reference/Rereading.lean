import Mathlib.Data.List.Induction
import Mathlib.Data.List.Infix
import MatlabDocs.Proofs.Reference.Anchored

/-!
# Reading documents again

A reading takes out what its document has entered before, and enters the rest anew.  As long as
documents do not enter each other's names, only the latest reading of each document matters.
-/

namespace MatlabDocs

open Table SiteStep

namespace SiteStep

def document : SiteStep → Text
  | .read _ document _ _ => document
  | .clear document => document

variable (steps : List SiteStep) (step : SiteStep) (document : Text)

/-- A step takes out what its document has entered before, and puts in entries of that document
that do not depend on the site. -/
theorem exists_entries :
    ∃ entries : List TableEntry, (∀ entry ∈ entries, entry.BelongsTo step.document) ∧
      ∀ site : Site,
        (site.after step).tables = (site.tables.clear step.document).enterAll entries := by
  cases step with
  | read settings document directives known =>
    obtain ⟨nodes, entries, after, follows, _, given⟩ :=
      @Directive.runAll_succeeds settings directives known { document }
    refine ⟨entries, follows.belong, ?_⟩
    intro site
    obtain ⟨noticed, isGiven⟩ := given (site.tables.clear document) []
    exact congrArg (fun result => result.2.tables) isGiven
  | clear document => exact ⟨[], List.forall_mem_nil _, fun _ => rfl⟩

def latest? : Option SiteStep :=
  steps.reverse.find? (·.document = document)

theorem latest?_append :
    latest? (steps ++ [step]) document =
      if step.document = document then some step else latest? steps document := by
  rw [latest?, List.reverse_append, List.reverse_singleton, List.singleton_append, List.find?_cons]
  by_cases same : step.document = document
  · simp [same]
  · simp [same, latest?]

theorem document_of_latest? {steps : List SiteStep} {step : SiteStep} {document : Text}
    (isLatest : latest? steps document = some step) : step.document = document := by
  simpa using List.find?_some isLatest

end SiteStep

/-- One of the reference tables: the document that each of its entries leads to, and what a step
does to it. -/
structure OwnedTable (α : Type) where
  table : ReferenceTables → NameTable α
  owner : α → Text
  empty : table {} = {}
  stepped : ∀ step : SiteStep, ∃ entries : List (Text × α),
    (∀ entry ∈ entries, owner entry.2 = step.document) ∧
    ∀ site : Site, table (site.after step).tables =
      ((table site.tables).filter fun _ entry => owner entry != step.document).insertAll entries

namespace OwnedTable

def objects : OwnedTable ObjectEntry where
  table := ReferenceTables.objects
  owner := ObjectEntry.document
  empty := rfl
  stepped step := by
    obtain ⟨entries, belong, entered⟩ := step.exists_entries
    refine ⟨entries.map TableEntry.toObject, ?_, fun site => by rw [entered]; rfl⟩
    exact List.forall_mem_map.mpr fun entry member => entry.document_toObject (belong entry member)

def modules : OwnedTable ModuleEntry where
  table := ReferenceTables.modules
  owner := ModuleEntry.document
  empty := rfl
  stepped step := by
    obtain ⟨entries, belong, entered⟩ := step.exists_entries
    refine ⟨entries.filterMap TableEntry.toModule?, ?_, fun site => by rw [entered]; rfl⟩
    intro found member
    obtain ⟨_ | ⟨name, module⟩, isEntry, isModule⟩ := List.mem_filterMap.mp member
    · cases isModule
    · cases isModule
      exact belong _ isEntry

variable {α : Type} (owned : OwnedTable α)

variable (steps : List SiteStep) (step : SiteStep) (name : Text)

def found? : Option α :=
  (owned.table (Site.ofSteps steps).tables).get? name

/-- No name is entered by two documents at any time. -/
def OneOwner : Prop :=
  ∀ first second, first <+: steps → second <+: steps → ∀ name entry other,
    owned.found? first name = some entry → owned.found? second name = some other →
    owned.owner entry = owned.owner other

theorem ofSteps_append : Site.ofSteps (steps ++ [step]) = (Site.ofSteps steps).after step := by
  simp [Site.ofSteps]

theorem nodup_keys : (owned.table (Site.ofSteps steps).tables).keys.Nodup := by
  induction steps using List.reverseRecOn with
  | nil =>
    have start : (Site.ofSteps []).tables = {} := rfl
    rw [start, owned.empty]
    exact List.nodup_nil
  | append_singleton steps step ih =>
    obtain ⟨entries, _, entered⟩ := owned.stepped step
    rw [ofSteps_append, entered]
    exact nodup_keys_insertAll (nodup_keys_filter ih _) entries

theorem exists_alone :
    ∃ entries : List (Text × α), (∀ entry ∈ entries, owned.owner entry.2 = step.document) ∧
      (∀ name, owned.found? [step] name = (Table.ofList entries).get? name) ∧
      ∀ site : Site, owned.table (site.after step).tables =
        ((owned.table site.tables).filter fun _ entry =>
          owned.owner entry != step.document).insertAll entries := by
  obtain ⟨entries, belong, entered⟩ := owned.stepped step
  refine ⟨entries, belong, ?_, entered⟩
  intro name
  have nothing : owned.table ({} : Site).tables = {} := owned.empty
  have alone := entered {}
  rw [nothing] at alone
  exact congrArg (fun table => table.get? name) alone

/-- A step gives what it gives on its own, and leaves what other documents have entered. -/
theorem found?_append :
    owned.found? (steps ++ [step]) name = (owned.found? [step] name).or
      ((owned.found? steps name).filter fun entry => owned.owner entry != step.document) := by
  obtain ⟨entries, _, alone, entered⟩ := owned.exists_alone step
  rw [alone, found?, ofSteps_append, entered, get?_insertAll,
    get?_filter_eq (owned.nodup_keys steps)]
  rfl

theorem owner_of_found? {step : SiteStep} {name : Text} {entry : α}
    (found : owned.found? [step] name = some entry) : owned.owner entry = step.document := by
  obtain ⟨entries, belong, alone, _⟩ := owned.exists_alone step
  rw [alone] at found
  exact belong _ (mem_of_get?_ofList found)

variable {owned} {steps : List SiteStep}

theorem OneOwner.of_append {later : List SiteStep} (oneOwner : owned.OneOwner (steps ++ later)) :
    owned.OneOwner steps :=
  fun first second isFirst isSecond =>
    oneOwner first second (isFirst.trans (List.prefix_append steps later))
      (isSecond.trans (List.prefix_append steps later))

theorem OneOwner.found?_eq_none {step : SiteStep} (oneOwner : owned.OneOwner (steps ++ [step]))
    {name : Text} {entry : α} (stays : owned.found? steps name = some entry)
    (other : owned.owner entry ≠ step.document) : owned.found? [step] name = none := by
  cases own : owned.found? [step] name with
  | none => rfl
  | some taken =>
    have now : owned.found? (steps ++ [step]) name = some taken := by
      rw [found?_append, own, Option.some_or]
    have sameOwner := oneOwner steps (steps ++ [step]) (List.prefix_append steps [step])
      (List.prefix_refl _) name entry taken stays now
    exact absurd (sameOwner.trans (owned.owner_of_found? own)) other

/-- Without shared names, an entry stands in the table exactly if the latest step for some
document enters it on its own. -/
private theorem found?_eq_some_iff (oneOwner : owned.OneOwner steps) (name : Text) (entry : α) :
    owned.found? steps name = some entry ↔
      ∃ document step, SiteStep.latest? steps document = some step ∧
        owned.found? [step] name = some entry := by
  induction steps using List.reverseRecOn with
  | nil =>
    have nothing : owned.found? [] name = none := by
      have start : owned.table (Site.ofSteps []).tables = {} := owned.empty
      rw [found?, start]
      rfl
    simp [nothing, latest?]
  | append_singleton steps step ih =>
    have before := ih oneOwner.of_append
    constructor
    · intro found
      rw [found?_append] at found
      rcases Option.or_eq_some_iff.mp found with own | ⟨_, kept⟩
      · exact ⟨step.document, step, by rw [latest?_append, if_pos rfl], own⟩
      · obtain ⟨stays, other⟩ := Option.filter_eq_some_iff.mp kept
        obtain ⟨document, latest, isLatest, entered⟩ := before.mp stays
        have different : step.document ≠ document := by
          intro same
          rw [owned.owner_of_found? entered, document_of_latest? isLatest, same] at other
          simp at other
        refine ⟨document, latest, ?_, entered⟩
        rw [latest?_append, if_neg different, isLatest]
    · intro entered
      obtain ⟨document, latest, isLatest, entered⟩ := entered
      rw [latest?_append] at isLatest
      by_cases same : step.document = document
      · rw [if_pos same] at isLatest
        obtain rfl := Option.some.inj isLatest
        rw [found?_append, entered, Option.some_or]
      · rw [if_neg same] at isLatest
        have stays := before.mpr ⟨document, latest, isLatest, entered⟩
        have other : owned.owner entry ≠ step.document := by
          rw [owned.owner_of_found? entered, document_of_latest? isLatest]
          exact fun equal => same equal.symm
        rw [found?_append, oneOwner.found?_eq_none stays other, stays, Option.none_or]
        exact Option.filter_eq_some_iff.mpr ⟨rfl, by simpa using other⟩

end OwnedTable

/-- Documents are read any number of times, in any order and with any changes between.  If at no
time a name is entered in a table by two documents, each table is the union of what the latest
reading of each document enters in empty tables. -/
theorem tables_of_latest_readings (steps : List SiteStep)
    (objectOwner : ∀ first second, first <+: steps → second <+: steps → ∀ name entry other,
      (Site.ofSteps first).tables.objects.get? name = some entry →
      (Site.ofSteps second).tables.objects.get? name = some other →
      entry.document = other.document)
    (moduleOwner : ∀ first second, first <+: steps → second <+: steps → ∀ name entry other,
      (Site.ofSteps first).tables.modules.get? name = some entry →
      (Site.ofSteps second).tables.modules.get? name = some other →
      entry.document = other.document) (name : Text) :
    (∀ entry, (Site.ofSteps steps).tables.objects.get? name = some entry ↔
      ∃ document step, SiteStep.latest? steps document = some step ∧
        (Site.ofSteps [step]).tables.objects.get? name = some entry) ∧
    (∀ entry, (Site.ofSteps steps).tables.modules.get? name = some entry ↔
      ∃ document step, SiteStep.latest? steps document = some step ∧
        (Site.ofSteps [step]).tables.modules.get? name = some entry) := by
  constructor
  · exact @OwnedTable.found?_eq_some_iff _ OwnedTable.objects steps objectOwner name
  · exact @OwnedTable.found?_eq_some_iff _ OwnedTable.modules steps moduleOwner name

/-- A document is read again with another function in it, after another document. -/
def rereadings : List SiteStep :=
  [.read {} "a" [.mk "module" "m" {} [], .mk "function" "f(x)" {} []] (Eq.refl true),
   .read {} "b" [.mk "class" "C" {} [.mk "method" "run(obj)" {} []]] rfl,
   .read {} "a" [.mk "module" "m" {} [], .mk "function" "g(x)" {} []] rfl]

theorem tables_of_latest_readings_rereadings :
    ∃ document step, SiteStep.latest? rereadings document = some step ∧
      (Site.ofSteps [step]).tables.objects.get? "m.g" = some ⟨"a", "function"⟩ :=
  have objectOwner : ∀ first ∈ rereadings.inits, ∀ second ∈ rereadings.inits,
      ∀ entry ∈ (Site.ofSteps first).tables.objects.entries,
      ∀ other ∈ (Site.ofSteps second).tables.objects.entries,
      entry.1 = other.1 → entry.2.document = other.2.document := by decide +kernel
  have moduleOwner : ∀ first ∈ rereadings.inits, ∀ second ∈ rereadings.inits,
      ∀ entry ∈ (Site.ofSteps first).tables.modules.entries,
      ∀ other ∈ (Site.ofSteps second).tables.modules.entries,
      entry.1 = other.1 → entry.2.document = other.2.document := by decide +kernel
  have entered : (Site.ofSteps rereadings).tables.objects.get? "m.g" = some ⟨"a", "function"⟩ := by
    decide +kernel
  have union := tables_of_latest_readings rereadings
    (fun first second isFirst isSecond _ _ _ found other =>
      objectOwner first ((List.mem_inits _ _).mpr isFirst) second
        ((List.mem_inits _ _).mpr isSecond) _ (mem_of_get? found) _
        (mem_of_get? other) rfl)
    (fun first second isFirst isSecond _ _ _ found other =>
      moduleOwner first ((List.mem_inits _ _).mpr isFirst) second
        ((List.mem_inits _ _).mpr isSecond) _ (mem_of_get? found) _
        (mem_of_get? other) rfl) "m.g"
  (union.1 _).mp entered

end MatlabDocs
