import MatlabDocs.Proofs.Reference.PackageSigns
import MatlabDocs.Proofs.Table
import MatlabDocs.Reference.Directive

/-!
# What directives enter

All that the directives of a document do to the reference tables is to enter objects and
modules of that document, and each time the anchor is placed that the entry leads to.  What the
tables hold is looked up for notices only, so the same entries are put into any tables.
Describing signatures always succeeds.  The anchors that this places are those of the nodes that
it gives, in the same order, and the scope stays as it is.
-/

namespace MatlabDocs

open List DocumentNode

def SignatureNode.anchors (node : SignatureNode) : List Text :=
  (node.target.map Prod.snd).toList

namespace DocumentNode

mutual

def anchors : DocumentNode → List Text
  | .index _ => []
  | .target anchor => [anchor]
  | .description _ _ signatures content =>
    signatures.flatMap SignatureNode.anchors ++ allAnchors content

def allAnchors : List DocumentNode → List Text
  | [] => []
  | node :: nodes => node.anchors ++ allAnchors nodes

end

theorem allAnchors_append (first second : List DocumentNode) :
    allAnchors (first ++ second) = allAnchors first ++ allAnchors second := by
  induction first with
  | nil => rfl
  | cons node first ih =>
    rw [cons_append, allAnchors, ih, allAnchors, append_assoc]

end DocumentNode

/-- What a directive enters.  A module is entered in both of the tables. -/
inductive TableEntry where
  | object (name : Text) (entry : ObjectEntry)
  | module (name : Text) (entry : ModuleEntry)

namespace TableEntry

def anchor : TableEntry → Text
  | .object name _ => name
  | .module name _ => moduleAnchor name

def toObject : TableEntry → Text × ObjectEntry
  | .object name entry => (name, entry)
  | .module name entry => (name, ⟨entry.document, "module"⟩)

def toModule? : TableEntry → Option (Text × ModuleEntry)
  | .object _ _ => none
  | .module name entry => some (name, entry)

/-- The entry leads to the document, and it is a module only if it is entered as one. -/
def BelongsTo (document : Text) : TableEntry → Prop
  | .object _ entry => entry.document = document ∧ entry.type ≠ "module"
  | .module _ entry => entry.document = document

end TableEntry

def ReferenceTables.enterAll (tables : ReferenceTables) (entries : List TableEntry) :
    ReferenceTables where
  objects := tables.objects.insertAll (entries.map TableEntry.toObject)
  modules := tables.modules.insertAll (entries.filterMap TableEntry.toModule?)

theorem ReferenceTables.enterAll_append (tables : ReferenceTables)
    (first second : List TableEntry) :
    tables.enterAll (first ++ second) = (tables.enterAll first).enterAll second := by
  simp [enterAll, Table.insertAll_append]

/-- One state follows another one in the same document, with these entries put in between. -/
structure Follows (before : ReferenceState) (entries : List TableEntry) (after : ReferenceState) :
    Prop where
  document_eq : after.document = before.document
  anchors_eq : after.anchors = before.anchors ++ entries.map TableEntry.anchor
  belong : ∀ entry ∈ entries, entry.BelongsTo before.document

theorem Follows.refl (state : ReferenceState) : Follows state [] state :=
  ⟨rfl, (append_nil _).symm, forall_mem_nil _⟩

theorem Follows.trans {first second third : ReferenceState} {entries more : List TableEntry}
    (left : Follows first entries second) (right : Follows second more third) :
    Follows first (entries ++ more) third where
  document_eq := right.document_eq.trans left.document_eq
  anchors_eq := by rw [right.anchors_eq, left.anchors_eq, map_append, append_assoc]
  belong := forall_mem_append.mpr ⟨left.belong, left.document_eq ▸ right.belong⟩

/-- No module is entered, and what the next description stands in stays. -/
structure KeepsScope (before : ReferenceState) (entries : List TableEntry)
    (after : ReferenceState) : Prop where
  modules_eq : entries.filterMap TableEntry.toModule? = []
  module_eq : after.module = before.module
  class?_eq : after.class? = before.class?

theorem KeepsScope.refl (state : ReferenceState) : KeepsScope state [] state :=
  ⟨rfl, rfl, rfl⟩

theorem KeepsScope.trans {first second third : ReferenceState} {entries more : List TableEntry}
    (left : KeepsScope first entries second) (right : KeepsScope second more third) :
    KeepsScope first (entries ++ more) third where
  modules_eq := by rw [filterMap_append, left.modules_eq, right.modules_eq, nil_append]
  module_eq := right.module_eq.trans left.module_eq
  class?_eq := right.class?_eq.trans left.class?_eq

theorem readSignature?_eq_none_iff (sort : DescriptionSort) (settings : DisplaySettings)
    (type : Text) (scopeClass : Option Text) (options : DescriptionOptions) (text : Text) :
    readSignature? sort settings type scopeClass options text = none ↔
      SignatureParts.ofDescription? text = none := by
  cases accepted : SignatureParts.ofDescription? text with
  | none =>
    rw [readSignature?, accepted]
    exact iff_of_true rfl rfl
  | some parts =>
    rw [readSignature?_of_accepted accepted]
    exact iff_of_false (Option.some_ne_none _) (Option.some_ne_none _)

namespace Directive

def isReadable (text : Text) : Bool :=
  (SignatureParts.ofDescription? text).isSome

/-- What describing signatures leads to.  A signature gives a name if it can be read, unless the
name is there already. -/
structure Describing (texts : List Text) (described : Described) (before : ReferenceState)
    (result : Described) (entries : List TableEntry) (after : ReferenceState) : Prop where
  placed : result.nodes.flatMap SignatureNode.anchors =
    described.nodes.flatMap SignatureNode.anchors ++ entries.map TableEntry.anchor
  keepsScope : KeepsScope before entries after
  unnamed_iff : result.names = [] ↔ described.names = [] ∧ texts.any isReadable = false

theorem Describing.trans {text : Text} {texts : List Text} {described next result : Described}
    {before middle after : ReferenceState} {entries more : List TableEntry}
    (first : Describing [text] described before next entries middle)
    (others : Describing texts next middle result more after) :
    Describing (text :: texts) described before result (entries ++ more) after where
  placed := by rw [others.placed, first.placed, map_append, append_assoc]
  keepsScope := first.keepsScope.trans others.keepsScope
  unnamed_iff := by simp [others.unnamed_iff, first.unnamed_iff, and_assoc]

end Directive

namespace Describes

/-- The action succeeds.  Whatever the tables hold, it gives the same value, leads to the same
scope and anchors, and puts the same entries of its document into the tables. -/
def Succeeds {α : Type} (action : Describes α) (before : ReferenceState)
    (required : α → List TableEntry → ReferenceState → Prop) : Prop :=
  ∃ value entries after, Follows before entries after ∧ required value entries after ∧
    ∀ tables notices, ∃ noticed, action { before with tables, notices } =
      (.ok value, { after with tables := tables.enterAll entries, notices := noticed })

namespace Succeeds

variable {α β : Type} {before : ReferenceState}
  {required : β → List TableEntry → ReferenceState → Prop}

theorem bind {action : Describes α} {next : α → Describes β}
    (first : action.Succeeds before fun value entries middle => (next value).Succeeds middle
      fun result more after => required result (entries ++ more) after) :
    (action >>= next).Succeeds before required := by
  obtain ⟨value, entries, middle, follows, ⟨result, more, after, followMore, holds, ends⟩, given⟩ :=
    first
  refine ⟨result, entries ++ more, after, follows.trans followMore, holds, ?_⟩
  intro tables notices
  obtain ⟨noticed, isGiven⟩ := given tables notices
  obtain ⟨later, isEnd⟩ := ends (tables.enterAll entries) noticed
  have unfolded : (action >>= next) { before with tables, notices } =
      let (outcome, reached) := action { before with tables, notices }
      ExceptT.bindCont next outcome reached := rfl
  refine ⟨later, ?_⟩
  rw [unfolded, isGiven, ReferenceTables.enterAll_append]
  exact isEnd

theorem of_pure {value : β} (holds : required value [] before) :
    (pure value : Describes β).Succeeds before required :=
  ⟨value, [], before, .refl before, holds, fun _ notices => ⟨notices, rfl⟩⟩

/-- What is looked up in the state must not be the tables. -/
theorem of_get {next : ReferenceState → Describes β}
    (same : ∀ tables notices, next { before with tables, notices } = next before)
    (rest : (next before).Succeeds before required) : (get >>= next).Succeeds before required := by
  obtain ⟨value, entries, after, follows, holds, given⟩ := rest
  refine ⟨value, entries, after, follows, holds, ?_⟩
  intro tables notices
  rw [← same tables notices] at given
  exact given tables notices

/-- What is set must be the scope alone. -/
theorem of_modify {required : Unit → List TableEntry → ReferenceState → Prop}
    {change : ReferenceState → ReferenceState}
    (setsScope : ∀ tables notices, change { before with tables, notices } =
      { before with
        tables, notices, module := (change before).module, class? := (change before).class? })
    (holds : required () [] (change before)) :
    (modify change : Describes Unit).Succeeds before required := by
  have unchanged := setsScope before.tables before.notices
  have follows : Follows before [] (change before) := by
    rw [unchanged]
    exact ⟨rfl, (append_nil _).symm, forall_mem_nil _⟩
  refine ⟨(), [], change before, follows, holds,
    fun tables notices => ⟨notices, congrArg (Prod.mk (Except.ok ())) ?_⟩⟩
  rw [setsScope, unchanged]
  rfl

theorem of_ok {outcome : Except Fault β} {value : β} (ok : outcome = .ok value)
    (holds : required value [] before) :
    (liftM outcome : Describes β).Succeeds before required := by
  rw [ok]
  exact of_pure holds

theorem mono {action : Describes β} {weaker : β → List TableEntry → ReferenceState → Prop}
    (succeeds : action.Succeeds before required)
    (implies : ∀ value entries after, required value entries after → weaker value entries after) :
    action.Succeeds before weaker := by
  obtain ⟨value, entries, after, follows, holds, given⟩ := succeeds
  exact ⟨value, entries, after, follows, implies value entries after holds, given⟩

end Succeeds

end Describes

namespace Directive

open Describes

variable {state : ReferenceState} {settings : DisplaySettings} {sort : DescriptionSort}
  {type : Text}

theorem enterObject_succeeds (notModule : type ≠ "module") (name : Text) :
    (enterObject type name).Succeeds state fun entered entries after =>
      entries.map TableEntry.anchor = (if entered then [name] else []) ∧
        KeepsScope state entries after := by
  by_cases taken : state.anchors.contains name
  · refine ⟨false, [], state, .refl state, ⟨rfl, .refl state⟩, fun tables notices => ⟨notices, ?_⟩⟩
    show (if state.anchors.contains name then _ else _ : Describes Bool) _ = _
    rw [if_pos taken]
    rfl
  · refine ⟨true, [.object name ⟨state.document, type⟩],
      { state with anchors := state.anchors ++ [name] },
      ⟨rfl, rfl, forall_mem_singleton.mpr ⟨rfl, notModule⟩⟩, ⟨rfl, rfl, rfl, rfl⟩, ?_⟩
    intro tables notices
    -- Only the notice of a duplicate depends on what the tables hold.
    apply Exists.intro
    show (if state.anchors.contains name then _ else _ : Describes Bool) _ = _
    rw [if_neg taken]
    rfl

private theorem ne_module_of_listed {names : List Text} (listed : names.contains type)
    (noModule : names.contains "module" = false) : type ≠ "module" := by
  rintro rfl
  rw [listed] at noModule
  cases noModule

theorem sortAndType?_spec {name : Text} (found : sortAndType? name = some (sort, type)) :
    sort ≠ .general ∧ type ≠ "module" := by
  unfold sortAndType? at found
  iterate 3
    split at found
    · rename_i listed
      obtain ⟨rfl, rfl⟩ := Prod.mk.inj (Option.some.inj found)
      exact ⟨by decide, ne_module_of_listed listed (by decide)⟩
  iterate 2
    split at found
    · obtain ⟨rfl, rfl⟩ := Prod.mk.inj (Option.some.inj found)
      exact ⟨by decide, by decide⟩
  cases found

section

variable (notGeneral : sort ≠ .general)
include notGeneral

theorem indexText_ok (name : Text) (module : Option Text) :
    ∃ text, sort.indexText settings type name module = .ok text := by
  cases sort with
  | general => exact absurd rfl notGeneral
  | moduleLevel => exact ⟨_, rfl⟩
  | classLike => exact ⟨_, rfl⟩
  | classMember => exact ⟨_, rfl⟩
  | decoratorFunction => exact ⟨_, rfl⟩
  | decoratorMethod => exact ⟨_, rfl⟩

theorem enterSignature_succeeds (notModule : type ≠ "module") (module : Option Text) (name : Text) :
    (enterSignature sort settings type module name).Succeeds state fun signature entries after =>
      (signature.1.map Prod.snd).toList = entries.map TableEntry.anchor ∧
        KeepsScope state entries after := by
  obtain ⟨text, indexed⟩ :=
    @indexText_ok settings sort type notGeneral name (module.map settings.shown)
  refine .bind ((enterObject_succeeds notModule _).mono ?_)
  rintro entered entries after ⟨placed, keeps⟩
  refine .bind (.of_ok indexed (.of_pure ?_))
  rw [nil_append, append_nil, placed]
  cases entered with
  | true => exact ⟨rfl, keeps⟩
  | false => exact ⟨rfl, keeps⟩

theorem describe_succeeds (notModule : type ≠ "module") (options : NameTable (Option Text))
    (unlisted : Bool) (described : Described) (text : Text) :
    (describe sort settings type options unlisted described text).Succeeds state
      (Describing [text] described state) := by
  refine .of_get (fun _ _ => rfl) ?_
  dsimp only
  split
  · rename_i unread
    have notReadable : isReadable text = false := by
      rw [isReadable, (readSignature?_eq_none_iff _ _ _ _ _ _).mp unread]
      rfl
    exact .of_pure ⟨by simp [SignatureNode.anchors], .refl state, by simp [notReadable]⟩
  · rename_i signature read
    have readable : isReadable text = true := by
      rw [isReadable, Option.isSome_iff_ne_none]
      intro unread
      rw [(readSignature?_eq_none_iff _ _ _ _ _ _).mpr unread] at read
      cases read
    split
    · rename_i known
      have named : described.names ≠ [] := by
        intro empty
        rw [empty] at known
        cases known
      exact .of_pure ⟨by simp [SignatureNode.anchors], .refl state, by simp [named]⟩
    · cases unlisted with
      | true =>
        exact .bind (.of_pure (.of_pure
          ⟨by simp [SignatureNode.anchors], .refl state, by simp [readable]⟩))
      | false =>
        refine .bind ((enterSignature_succeeds notGeneral notModule _ _).mono ?_)
        rintro signature entries after ⟨placed, keeps⟩
        refine .of_pure ⟨?_, keeps.trans (.refl after), by simp [readable]⟩
        simp [SignatureNode.anchors, placed]

theorem describeAll_succeeds (notModule : type ≠ "module") (options : NameTable (Option Text))
    (unlisted : Bool) (described : Described) (texts : List Text) :
    (texts.foldlM (describe sort settings type options unlisted) described).Succeeds state
      (Describing texts described state) := by
  induction texts generalizing state described with
  | nil => exact .of_pure ⟨by simp, .refl state, by simp⟩
  | cons text texts ih =>
    rw [foldlM_cons]
    refine .bind ((describe_succeeds notGeneral notModule options unlisted described text).mono ?_)
    intro next entries middle first
    exact (ih next).mono fun _ _ _ others => first.trans others

end

end Directive

end MatlabDocs
