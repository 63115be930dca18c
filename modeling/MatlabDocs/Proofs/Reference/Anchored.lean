import MatlabDocs.Proofs.Reference.ClassScope
import MatlabDocs.Proofs.Reference.FoundObjects
import MatlabDocs.Reference.Resolve

/-!
# References lead to anchors

Documents are read and cleared in any order, and they may describe objects and modules under
the same names.  In every state that is reached so, each entry of the reference tables leads
to an anchor that the current reading of its document has placed.  Hence a reference is
either not found or leads to such an anchor.
-/

namespace MatlabDocs

def entryAnchor (name : Text) (entry : ObjectEntry) : Text :=
  if entry.type = "module" then moduleAnchor name else name

namespace TableEntry

variable (entry : TableEntry) {document : Text} (belongs : entry.BelongsTo document)
include belongs

theorem entryAnchor_toObject : entryAnchor entry.toObject.1 entry.toObject.2 = entry.anchor := by
  cases entry with
  | object name entry => exact if_neg belongs.2
  | module name entry => rfl

theorem document_toObject : entry.toObject.2.document = document := by
  cases entry with
  | object name entry => exact belongs.1
  | module name entry => exact belongs

end TableEntry

/-- The anchors of all documents, with other ones for one of them. -/
def withAnchors (anchors : Text → List Text) (document : Text) (placed : List Text) :
    Text → List Text :=
  fun other => if other = document then placed else anchors other

theorem withAnchors_self (anchors : Text → List Text) (document : Text) (placed : List Text) :
    withAnchors anchors document placed document = placed :=
  if_pos rfl

theorem withAnchors_of_ne {document other : Text} (different : other ≠ document)
    (anchors : Text → List Text) (placed : List Text) :
    withAnchors anchors document placed other = anchors other :=
  if_neg different

theorem withAnchors_subset {placed more : List Text} (grows : placed ⊆ more)
    (anchors : Text → List Text) (document other : Text) :
    withAnchors anchors document placed other ⊆ withAnchors anchors document more other := by
  by_cases same : other = document
  · subst same
    rwa [withAnchors_self, withAnchors_self]
  · rw [withAnchors_of_ne same, withAnchors_of_ne same]
    exact List.Subset.refl _

/-- The entries lead to anchors in their documents, and those of modules are entered as modules
of the same document. -/
structure Anchored (tables : ReferenceTables) (anchors : Text → List Text) : Prop where
  distinct : tables.objects.keys.Nodup
  listed : ∀ name entry, (name, entry) ∈ tables.objects.entries → entry.type = "module" →
    ∃ module, tables.modules.get? name = some module ∧ module.document = entry.document
  placed : ∀ name entry, (name, entry) ∈ tables.objects.entries →
    entryAnchor name entry ∈ anchors entry.document

namespace Anchored

variable {tables : ReferenceTables} {anchors more : Text → List Text}

theorem empty : Anchored {} anchors where
  distinct := List.nodup_nil
  listed := by simp
  placed := by simp

theorem enter (anchored : Anchored tables anchors) {document : Text} {entry : TableEntry}
    (belongs : entry.BelongsTo document) (grows : ∀ other, anchors other ⊆ more other)
    (isPlaced : entry.anchor ∈ more document) : Anchored (tables.enterAll [entry]) more where
  distinct := Table.nodup_insertEntry anchored.distinct
  listed := by
    intro name found member isModule
    rcases Table.mem_insertEntry anchored.distinct member with new | ⟨old, different⟩
    · cases entry with
      | object other object =>
        obtain ⟨rfl, rfl⟩ := Prod.mk.inj new
        exact absurd isModule belongs.2
      | module other module =>
        obtain ⟨rfl, rfl⟩ := Prod.mk.inj new
        exact ⟨module, (Table.get?_insert ..).trans (if_pos rfl), rfl⟩
    · obtain ⟨module, isListed, sameDocument⟩ := anchored.listed name found old isModule
      cases entry with
      | object other object => exact ⟨module, isListed, sameDocument⟩
      | module other own =>
        have stays : (tables.modules.insert other own).get? name = some module := by
          rw [Table.get?_insert, if_neg different, isListed]
        exact ⟨module, stays, sameDocument⟩
  placed := by
    intro name found member
    rcases Table.mem_insertEntry anchored.distinct member with new | ⟨old, _⟩
    · have isFound : (name, found) = entry.toObject := new
      rw [← entry.entryAnchor_toObject belongs, ← isFound] at isPlaced
      rwa [← entry.document_toObject belongs, ← isFound] at isPlaced
    · exact grows _ (anchored.placed name found old)

/-- Clearing a document takes its entries out of both tables, so none is left that leads to
it. -/
theorem clear (anchored : Anchored tables anchors) (document : Text) :
    Anchored (tables.clear document) (withAnchors anchors document []) where
  distinct := Table.nodup_keys_filter anchored.distinct _
  listed := by
    intro name entry member isModule
    obtain ⟨old, kept⟩ := List.mem_filter.mp member
    obtain ⟨module, found, same⟩ := anchored.listed name entry old isModule
    exact ⟨module, Table.get?_filter found (by simpa [same] using kept), same⟩
  placed := by
    intro name entry member
    obtain ⟨old, kept⟩ := List.mem_filter.mp member
    rw [withAnchors_of_ne (by simpa using kept)]
    exact anchored.placed name entry old

end Anchored

/-- A site between the readings of its documents: the reference tables, and the nodes that the
current reading of each document gave. -/
structure Site where
  tables : ReferenceTables := {}
  pages : Text → List DocumentNode := fun _ => []

/-- A document is read, from its directives, or it is cleared. -/
inductive SiteStep where
  | read (settings : DisplaySettings) (document : Text) (directives : List Directive)
      (known : Directive.areKnown directives)
  | clear (document : Text)

namespace Site

variable (site : Site) (steps : List SiteStep)

def anchors (document : Text) : List Text :=
  DocumentNode.allAnchors (site.pages document)

/-- Reading a document takes out what it has entered before. -/
def after : SiteStep → Site
  | .read settings document directives _ =>
    let (outcome, state) :=
      Directive.runAll settings directives { tables := site.tables.clear document, document }
    { tables := state.tables
      pages := fun other =>
        if other = document then outcome.toOption.getD [] else site.pages other }
  | .clear document =>
    { tables := site.tables.clear document
      pages := fun other => if other = document then [] else site.pages other }

def ofSteps : Site :=
  steps.foldl after {}

private theorem anchors_page (tables : ReferenceTables) (site : Site) (document : Text)
    (nodes : List DocumentNode) :
    Site.anchors ⟨tables, fun other => if other = document then nodes else site.pages other⟩ =
      withAnchors site.anchors document (DocumentNode.allAnchors nodes) := by
  funext other
  by_cases same : other = document <;> simp [anchors, withAnchors, same]

/-- What holds of empty tables, and is kept when a document is cleared and when its directives
enter objects and modules, holds after any readings and clearings. -/
theorem holds_ofSteps {holds : ReferenceTables → (Text → List Text) → Prop}
    (start : holds {} fun _ => [])
    (cleared : ∀ {tables anchors} document, holds tables anchors →
      holds (tables.clear document) (withAnchors anchors document []))
    (entered : ∀ {tables anchors more document entry}, holds tables anchors →
      TableEntry.BelongsTo document entry → (∀ other, anchors other ⊆ more other) →
      entry.anchor ∈ more document → holds (tables.enterAll [entry]) more)
    (steps : List SiteStep) : holds (ofSteps steps).tables (ofSteps steps).anchors := by
  have enteredAll : ∀ {tables anchors document} (before : List Text) (entries : List TableEntry),
      holds tables (withAnchors anchors document before) →
      (∀ entry ∈ entries, entry.BelongsTo document) →
      holds (tables.enterAll entries)
        (withAnchors anchors document (before ++ entries.map TableEntry.anchor)) := by
    intro tables anchors document before entries holding belong
    induction entries generalizing tables before with
    | nil => rwa [List.map_nil, List.append_nil]
    | cons entry entries ih =>
      obtain ⟨belongs, others⟩ := List.forall_mem_cons.mp belong
      have later := ih (before ++ [entry.anchor]) (entered holding belongs
        (withAnchors_subset (List.subset_append_left _ _) anchors document)
        (by simp [withAnchors_self])) others
      rwa [← ReferenceTables.enterAll_append, List.append_assoc] at later
  have oneStep : ∀ (site : Site) (step : SiteStep), holds site.tables site.anchors →
      holds (site.after step).tables (site.after step).anchors := by
    intro site step before
    cases step with
    | read settings document directives known =>
      obtain ⟨nodes, entries, state, follows, ⟨placed, _⟩, given⟩ :=
        @Directive.runAll_succeeds settings directives known { document }
      obtain ⟨noticed, isGiven⟩ := given (site.tables.clear document) []
      have shape : site.after (.read settings document directives known) =
          ⟨(site.tables.clear document).enterAll entries,
            fun other => if other = document then nodes else site.pages other⟩ := by
        rw [after, isGiven]
        rfl
      rw [shape, anchors_page, placed]
      exact enteredAll [] entries (cleared document before) follows.belong
    | clear document =>
      have shape : site.after (.clear document) = ⟨site.tables.clear document,
          fun other => if other = document then [] else site.pages other⟩ := rfl
      rw [shape, anchors_page]
      exact cleared document before
  have fromAny : ∀ site : Site, holds site.tables site.anchors →
      holds (steps.foldl after site).tables (steps.foldl after site).anchors := by
    induction steps with
    | nil => exact fun site before => before
    | cons step steps ih =>
      intro site before
      exact ih _ (oneStep site step before)
  exact fromAny {} start

theorem anchored_ofSteps : Anchored (ofSteps steps).tables (ofSteps steps).anchors :=
  holds_ofSteps .empty (fun document anchored => anchored.clear document)
    (fun anchored => anchored.enter) steps

end Site

namespace ReferenceTables

variable {tables : ReferenceTables}

theorem document_leadTo (source document anchor title : Text) :
    (leadTo source document anchor title).document.getD source = document := by
  by_cases same : source = document <;> simp [leadTo, same]

/-- Where the entries are anchored, a reference is not found or leads to the anchor of an entry in
its document. -/
private theorem resolve_anchored {anchors : Text → List Text} (anchored : Anchored tables anchors)
    (source : Text) (scope : NameScope) (role target : Text) (narrow : Bool) :
    (tables.resolve source scope role target narrow).result = .ok none ∨
      ∃ name entry reference,
        (tables.resolve source scope role target narrow).result = .ok (some reference) ∧
        (name, entry) ∈ tables.objects.entries ∧
        reference.document.getD source = entry.document ∧
        reference.anchor = entryAnchor name entry := by
  rw [resolve]
  split
  · exact .inl rfl
  · rename_i name entry others found
    have member : (name, entry) ∈ tables.objects.entries :=
      Table.mem_of_get? (of_mem_findObjects anchored.distinct (found ▸ List.mem_cons_self)).1
    refine .inr ⟨name, entry, ?_⟩
    split
    · rename_i isModule
      obtain ⟨module, isListed, sameDocument⟩ :=
        anchored.listed name entry member (eq_of_beq isModule)
      simp only [isListed, sameDocument, if_true]
      refine ⟨_, rfl, member, document_leadTo .., ?_⟩
      rw [entryAnchor, if_pos (eq_of_beq isModule)]
      rfl
    · rename_i notModule
      refine ⟨_, rfl, member, document_leadTo .., ?_⟩
      rw [entryAnchor, if_neg (by simpa using notModule)]
      rfl

end ReferenceTables

/-- After any readings and clearings, every module among the objects is entered as a module of
the same document.  So no reference fails, and where one leads, the current reading of that
document has placed the anchor. -/
theorem references_never_dangle (steps : List SiteStep) :
    (∀ name entry, (name, entry) ∈ (Site.ofSteps steps).tables.objects.entries →
      entry.type = "module" →
      ∃ module, (Site.ofSteps steps).tables.modules.get? name = some module ∧
        module.document = entry.document) ∧
    ∀ source scope role target narrow,
      ((Site.ofSteps steps).tables.resolve source scope role target narrow).result = .ok none ∨
      ∃ name entry reference,
        ((Site.ofSteps steps).tables.resolve source scope role target narrow).result =
          .ok (some reference) ∧
        (name, entry) ∈ (Site.ofSteps steps).tables.objects.entries ∧
        reference.document.getD source = entry.document ∧
        reference.anchor = (if entry.type = "module" then moduleAnchor name else name) ∧
        reference.anchor ∈ (Site.ofSteps steps).anchors entry.document := by
  have anchored := Site.anchored_ofSteps steps
  refine ⟨anchored.listed, ?_⟩
  intro source scope role target narrow
  rcases ReferenceTables.resolve_anchored anchored source scope role target narrow with
    nothing | ⟨name, entry, reference, resolved, member, document, anchor⟩
  · exact .inl nothing
  · refine .inr ⟨name, entry, reference, resolved, member, document, anchor, ?_⟩
    rw [anchor]
    exact anchored.placed name entry member

/-- A module whose name another document takes for a function in between. -/
def sharedName : List SiteStep :=
  [.read {} "a" [.mk "module" "m" {} []] rfl,
   .read {} "b" [.mk "function" "m(x)" {} []] rfl,
   .read {} "a" [.mk "module" "m" {} [], .mk "function" "f(x)" {} []] rfl]

theorem references_never_dangle_sharedName :
    (("m", ⟨"a", "module"⟩) : Text × ObjectEntry) ∈
      (Site.ofSteps sharedName).tables.objects.entries ∧
    ∃ module, (Site.ofSteps sharedName).tables.modules.get? "m" = some module ∧
      module.document = "a" :=
  have member : (("m", ⟨"a", "module"⟩) : Text × ObjectEntry) ∈
      (Site.ofSteps sharedName).tables.objects.entries := by decide +kernel
  ⟨member, (references_never_dangle sharedName).1 _ _ member rfl⟩

end MatlabDocs
