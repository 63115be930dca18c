import Mathlib.Data.List.Nodup
import MatlabDocs.Proofs.Reference.Anchored

/-!
# The list of objects for other projects

The list names the modules first, each with the anchor of the module, and then the objects,
each with its name as the anchor.  A module also stands among the objects, so it is listed
twice, and the second time under a name that need not be an anchor.  All other rows are listed
once and lead to anchors that the current reading of their document has placed.
-/

namespace MatlabDocs

open List

structure ModulesAnchored (tables : ReferenceTables) (anchors : Text → List Text) : Prop where
  distinct : tables.modules.keys.Nodup
  placed : ∀ name entry, (name, entry) ∈ tables.modules.entries →
    moduleAnchor name ∈ anchors entry.document

namespace ModulesAnchored

variable {tables : ReferenceTables} {anchors more : Text → List Text}

theorem empty : ModulesAnchored {} anchors where
  distinct := nodup_nil
  placed := by simp

theorem clear (anchored : ModulesAnchored tables anchors) (document : Text) :
    ModulesAnchored (tables.clear document) (withAnchors anchors document []) where
  distinct := Table.nodup_keys_filter anchored.distinct _
  placed := by
    intro name entry member
    obtain ⟨old, kept⟩ := mem_filter.mp member
    rw [withAnchors_of_ne (by simpa using kept)]
    exact anchored.placed name entry old

theorem enter (anchored : ModulesAnchored tables anchors) {document : Text} {entry : TableEntry}
    (belongs : entry.BelongsTo document) (grows : ∀ other, anchors other ⊆ more other)
    (isPlaced : entry.anchor ∈ more document) :
    ModulesAnchored (tables.enterAll [entry]) more := by
  cases entry with
  | object name object =>
    exact ⟨anchored.distinct, fun other found member =>
      grows _ (anchored.placed other found member)⟩
  | module name module =>
    refine ⟨Table.nodup_insertEntry anchored.distinct, ?_⟩
    intro other found member
    rcases Table.mem_insertEntry anchored.distinct member with new | ⟨old, _⟩
    · obtain ⟨rfl, rfl⟩ := Prod.mk.inj new
      have sameDocument : found.document = document := belongs
      rwa [sameDocument]
    · exact grows _ (anchored.placed other found old)

theorem ofSteps (steps : List SiteStep) :
    ModulesAnchored (Site.ofSteps steps).tables (Site.ofSteps steps).anchors :=
  Site.holds_ofSteps .empty (fun document anchored => anchored.clear document)
    (fun anchored => anchored.enter) steps

end ModulesAnchored

namespace ListedObject

def ofModule (name : Text) (entry : ModuleEntry) : ListedObject :=
  ⟨name, "module", entry.document, moduleAnchor name, 0⟩

def ofObject (name : Text) (entry : ObjectEntry) : ListedObject :=
  ⟨name, entry.type, entry.document, name, 1⟩

def key (row : ListedObject) : Text × Text :=
  (row.name, row.type)

end ListedObject

namespace ReferenceTables

variable {tables : ReferenceTables} {row : ListedObject}

theorem listed_eq (tables : ReferenceTables) :
    tables.listed = (tables.modules.entries.map fun entry => .ofModule entry.1 entry.2) ++
      tables.objects.entries.map fun entry => .ofObject entry.1 entry.2 :=
  rfl

/-- The rows without the modules that stand among the objects. -/
def listedOnce (tables : ReferenceTables) : List ListedObject :=
  tables.listed.filter fun row => row.type ≠ "module" ∨ row.priority = 0

theorem listedOnce_eq (tables : ReferenceTables) :
    tables.listedOnce = (tables.modules.entries.map fun entry => .ofModule entry.1 entry.2) ++
      (tables.objects.entries.filter fun entry => entry.2.type ≠ "module".toList).map
        fun entry => .ofObject entry.1 entry.2 := by
  rw [listedOnce, listed_eq, filter_append, filter_map, filter_map]
  congr 2
  · refine filter_eq_self.mpr fun entry _ => ?_
    rw [Function.comp_apply]
    exact decide_eq_true (.inr rfl)
  · exact filter_congr fun entry _ => decide_eq_decide.mpr (or_iff_left Nat.one_ne_zero)

/-- With distinct names in each of the tables, the modules are told from the objects by their
type. -/
theorem nodup_key_listedOnce (modules : tables.modules.keys.Nodup)
    (objects : tables.objects.keys.Nodup) : (tables.listedOnce.map ListedObject.key).Nodup := by
  rw [listedOnce_eq, map_append, List.map_map, List.map_map]
  refine nodup_append.mpr ⟨?_, ?_, ?_⟩
  · apply List.Nodup.of_map Prod.fst
    rw [List.map_map]
    exact modules
  · apply List.Nodup.of_map Prod.fst
    rw [List.map_map]
    exact objects.sublist (filter_sublist.map Prod.fst)
  · intro moduleKey isModule objectKey isObject same
    obtain ⟨module, _, rfl⟩ := mem_map.mp isModule
    obtain ⟨object, member, rfl⟩ := mem_map.mp isObject
    have noModule := (mem_filter.mp member).2
    have isType : "module".toList = object.2.type := congrArg Prod.snd same
    exact of_decide_eq_true noModule isType.symm

theorem anchor_of_mem_listedOnce {anchors : Text → List Text} (anchored : Anchored tables anchors)
    (modulesAnchored : ModulesAnchored tables anchors) (member : row ∈ tables.listedOnce) :
    row.anchor ∈ anchors row.document := by
  rw [listedOnce_eq] at member
  rcases mem_append.mp member with isModule | isObject
  · obtain ⟨⟨name, entry⟩, entered, rfl⟩ := mem_map.mp isModule
    exact modulesAnchored.placed name entry entered
  · obtain ⟨⟨name, entry⟩, kept, rfl⟩ := mem_map.mp isObject
    obtain ⟨entered, noModule⟩ := mem_filter.mp kept
    have placed := anchored.placed name entry entered
    rwa [entryAnchor, if_neg (of_decide_eq_true noModule)] at placed

private theorem repeats_of_not_mem_listedOnce {anchors : Text → List Text}
    (anchored : Anchored tables anchors) (member : row ∈ tables.listed)
    (left : row ∉ tables.listedOnce) :
    row.anchor = row.name ∧
      { row with anchor := moduleAnchor row.name, priority := 0 } ∈ tables.listedOnce := by
  have isRepeated : ¬(row.type ≠ "module" ∨ row.priority = 0) :=
    fun once => left (mem_filter.mpr ⟨member, decide_eq_true once⟩)
  rw [listed_eq] at member
  rcases mem_append.mp member with isModule | isObject
  · obtain ⟨⟨name, entry⟩, entered, rfl⟩ := mem_map.mp isModule
    exact absurd (.inr rfl) isRepeated
  · obtain ⟨⟨name, entry⟩, entered, rfl⟩ := mem_map.mp isObject
    have isModule : entry.type = "module" := by
      by_contra other
      exact isRepeated (.inl other)
    obtain ⟨module, listed, sameDocument⟩ := anchored.listed name entry entered isModule
    refine ⟨rfl, ?_⟩
    rw [listedOnce_eq]
    refine mem_append_left _ (mem_map.mpr ⟨(name, module), Table.mem_of_get? listed, ?_⟩)
    simp [ListedObject.ofModule, ListedObject.ofObject, isModule, sameDocument]

end ReferenceTables

/-- After any readings and clearings the modules among the objects are the only rows that are
listed twice.  Without them no two rows have the same name and type, and every anchor has been
placed by the current reading of its document.  Such a row has its name for an anchor, and repeats
the row of a module in the same document that leads to the anchor of the module. -/
theorem only_modules_listed_twice (steps : List SiteStep) :
    let site := Site.ofSteps steps
    let listed := site.tables.listed
    let once := listed.filter fun row => row.type ≠ "module".toList ∨ row.priority = 0
    (once.map fun row => (row.name, row.type)).Nodup ∧
    (∀ row ∈ once, row.anchor ∈ site.anchors row.document) ∧
    (∀ row ∈ listed, row ∉ once → row.anchor = row.name ∧
      { row with anchor := moduleAnchor row.name, priority := 0 } ∈ once) ∧
    ((listed.map fun row => (row.name, row.type)).Nodup ↔ ∀ row ∈ listed, row ∈ once) := by
  intro site listed once
  have anchored := Site.anchored_ofSteps steps
  have modulesAnchored := ModulesAnchored.ofSteps steps
  have distinct : (once.map ListedObject.key).Nodup :=
    ReferenceTables.nodup_key_listedOnce modulesAnchored.distinct anchored.distinct
  have repeats : ∀ row ∈ listed, row ∉ once → row.anchor = row.name ∧
      { row with anchor := moduleAnchor row.name, priority := 0 } ∈ once :=
    fun row member left => ReferenceTables.repeats_of_not_mem_listedOnce anchored member left
  refine ⟨distinct, ?_, repeats, ?_, ?_⟩
  · intro row member
    exact ReferenceTables.anchor_of_mem_listedOnce anchored modulesAnchored member
  · intro nodup row member
    by_contra left
    have isOnce := (repeats row member left).2
    have same := List.inj_on_of_nodup_map nodup member (List.mem_filter.mp isOnce).1 rfl
    exact left (same ▸ isOnce)
  · intro all
    have whole : once = listed :=
      List.filter_eq_self.mpr fun row member => (List.mem_filter.mp (all row member)).2
    rw [← whole]
    exact distinct

/-- A module is listed twice with the same name and type, the second time with an anchor that its
document does not have. -/
theorem module_listed_twice :
    let site := Site.ofSteps [.read {} "index" [.mk "module" "m" {} []] rfl]
    site.tables.listed =
      [⟨"m", "module", "index", "module-m", 0⟩, ⟨"m", "module", "index", "m", 1⟩] ∧
    site.anchors "index" = ["module-m".toList] := by
  decide +kernel

end MatlabDocs
