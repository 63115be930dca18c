import MatlabDocs.Proofs.Reference.Entering

/-!
# What hidden package signs do to the references

Two runs over the same directives are compared, one with package signs and one without them.
The modules are entered alike in any case.  As long as no signature is written with package
signs of its own, the runs differ in nothing but what is shown.  A signature with such signs
is entered under another name once they are hidden.
-/

namespace MatlabDocs

open List SignatureParts DocumentNode

/-- Whether a part of the dotted name starts with a package sign. -/
def hasPackageSign (name : Text) : Bool :=
  (name.splitOn '.').any fun part => part.head? == some '+'

private theorem Text.joinWith_splitOn (separator : Char) (text : Text) :
    joinWith [separator] (splitOn separator text) = text := by
  induction text with
  | nil => rfl
  | cons c text ih =>
    obtain ⟨piece, pieces, split⟩ := exists_splitOn_eq_cons separator text
    rw [split] at ih
    by_cases same : c = separator
    · rw [splitOn, if_pos same, split, joinWith_cons_cons, ih, same]
      rfl
    · rw [splitOn, if_neg same, split]
      cases pieces with
      | nil =>
        rw [joinWith_singleton] at ih ⊢
        rw [ih]
      | cons next pieces =>
        rw [joinWith_cons_cons] at ih ⊢
        rw [cons_append, cons_append, ih]

theorem withoutPackageSigns_eq_self_iff (name : Text) :
    withoutPackageSigns name = name ↔ hasPackageSign name = false := by
  have unsigned : hasPackageSign name = false ↔
      (name.splitOn '.').map (fun part => part.dropWhile (· == '+')) = name.splitOn '.' := by
    rw [hasPackageSign, any_eq_false]
    constructor
    · intro signs
      conv_rhs => rw [← map_id (name.splitOn '.')]
      apply map_congr_left
      intro part member
      exact (dropWhile_eq_self_iff_head? '+' part).mpr (by simpa using signs part member)
    · intro same part member
      have fixed := map_inj_left.mp (same.trans (map_id _).symm) part member
      simpa using (dropWhile_eq_self_iff_head? '+' part).mp fixed
  rw [unsigned]
  constructor
  · intro same
    rw [← splitOn_withoutPackageSigns, same]
  · intro same
    rw [withoutPackageSigns, same]
    exact Text.joinWith_splitOn '.' name

theorem hasPackageSign_dotted (front rest : Text) :
    hasPackageSign (front ++ '.' :: rest) = (hasPackageSign front || hasPackageSign rest) := by
  rw [hasPackageSign, Text.splitOn_append_separator, any_append, hasPackageSign, hasPackageSign]

namespace SignatureParts

def fullName (parts : SignatureParts) : Text :=
  parts.path.getD [] ++ parts.name

def isSigned (text : Text) : Bool :=
  (ofDescription? text).any fun parts => hasPackageSign parts.fullName

variable {text : Text} {parts : SignatureParts}

section

variable (accepted : ofDescription? text = some parts)
include accepted

theorem name_ne_nil : parts.name ≠ [] := by
  rw [ofDescription?, read?] at accepted
  dsimp only at accepted
  split at accepted
  · rename_i simple
    obtain ⟨_, _, rfl⟩ := Option.map_eq_some_iff.mp accepted
    intro empty
    dsimp only at empty
    rw [empty] at simple
    cases simple
  · cases accepted

theorem unsigned_parts (unsigned : hasPackageSign parts.fullName = false) :
    parts.path.map withoutPackageSigns = parts.path ∧
      withoutPackageSigns parts.name = parts.name := by
  have dotted := exists_dot_of_ofDescription? accepted
  rw [fullName] at unsigned
  cases hasPath : parts.path with
  | none =>
    rw [hasPath] at unsigned
    exact ⟨rfl, (withoutPackageSigns_eq_self_iff _).mpr unsigned⟩
  | some path =>
    obtain ⟨front, rfl⟩ := dotted path hasPath
    rw [hasPath, Option.getD_some, append_assoc, singleton_append,
      hasPackageSign_dotted, Bool.or_eq_false_iff] at unsigned
    rw [Option.map_some, withoutPackageSigns_dotted, withoutPackageSigns_nil,
      (withoutPackageSigns_eq_self_iff front).mpr unsigned.1]
    exact ⟨rfl, (withoutPackageSigns_eq_self_iff _).mpr unsigned.2⟩

theorem qualify_shown (settings : DisplaySettings) :
    (qualify none (parts.path.map settings.shown) (settings.shown parts.name)).1 =
      settings.shown parts.fullName := by
  have plain : (qualify none parts.path parts.name).1 = parts.fullName := by
    rw [fullName]
    cases parts.path <;> rfl
  cases keeps : settings.keepPackageSigns with
  | true =>
    have shown : settings.shown = id := by
      funext name
      simp [DisplaySettings.shown, keeps]
    rw [shown, Option.map_id]
    exact plain
  | false =>
    have shown : settings.shown = withoutPackageSigns := by
      funext name
      simp [DisplaySettings.shown, keeps]
    rw [shown, fullName_withoutPackageSigns (exists_dot_of_ofDescription? accepted), plain]

end

end SignatureParts

private theorem qualify_ne_nil {name : Text} (named : name ≠ []) (scope path : Option Text) :
    (qualify scope path name).1 ≠ [] := by
  unfold qualify
  split
  · exact named
  · exact append_ne_nil_of_right_ne_nil _ named
  · exact append_ne_nil_of_right_ne_nil _ named
  · split
    · exact append_ne_nil_of_right_ne_nil _ named
    · exact append_ne_nil_of_right_ne_nil _ named

/-- A signature without signs of its own is read alike, whether they are shown or not. -/
theorem readSignature?_unsigned {text : Text} {parts : SignatureParts}
    (accepted : ofDescription? text = some parts)
    (unsigned : hasPackageSign parts.fullName = false) (sort : DescriptionSort)
    (settings : DisplaySettings) (type : Text) (scopeClass : Option Text)
    (options : DescriptionOptions) :
    ∃ kept hidden : ReadSignature,
      readSignature? sort settings.showSigns type scopeClass options text = some kept ∧
      readSignature? sort settings.hideSigns type scopeClass options text = some hidden ∧
      hidden.fullName = kept.fullName ∧ hidden.path = kept.path ∧ kept.fullName ≠ [] := by
  obtain ⟨samePath, sameName⟩ := unsigned_parts accepted unsigned
  refine ⟨_, _, readSignature?_of_accepted accepted sort settings.showSigns type scopeClass options,
    readSignature?_of_accepted accepted sort settings.hideSigns type scopeClass options, ?_, ?_, ?_⟩
  · simp [samePath, sameName]
  · simp [samePath, sameName]
  · exact qualify_ne_nil (name_ne_nil accepted) _ _

namespace DescriptionSort

def isIndexed (sort : DescriptionSort) (type : Text) : Bool :=
  match sort with
  | general => false
  | moduleLevel | decoratorFunction =>
    type == "function" || type == "data" || type == "application"
  | classLike => type == "class" || type == "exception"
  | classMember | decoratorMethod =>
    type == "method" || type == "staticmethod" || type == "classmethod" || type == "attribute"

variable {name : Text}

theorem inModule_ne_nil (named : name ≠ []) (module otherwise : Text) :
    inModule name module otherwise ≠ [] := by
  unfold inModule
  split <;> simp [named]

theorem memberText_ne_nil (named : name ≠ []) (module call kind : Text) (showModule : Bool) :
    memberText name module call kind showModule ≠ [] := by
  unfold memberText
  split
  · exact inModule_ne_nil (by simp [named]) module []
  · simp

/-- Whether an object is listed does not depend on what is shown of it. -/
theorem indexText_eq_nil_iff {sort : DescriptionSort} (notGeneral : sort ≠ .general)
    (named : name ≠ []) (settings : DisplaySettings) (type : Text) (module : Option Text) :
    ∃ text, sort.indexText settings type name module = .ok text ∧
      (text = [] ↔ sort.isIndexed type = false) := by
  have called : name ++ ['(', ')'] ≠ [] := by simp
  have moduleLevelText : moduleLevelText type name (module.getD []) = [] ↔
      isIndexed moduleLevel type = false := by
    unfold DescriptionSort.moduleLevelText isIndexed
    split
    · simp_all [inModule_ne_nil called]
    · split
      · simp_all [inModule_ne_nil named]
      · split
        · simp_all [inModule_ne_nil named]
        · simp_all
  have classLikeText : classLikeText type name (module.getD []) = [] ↔
      isIndexed classLike type = false := by
    unfold DescriptionSort.classLikeText isIndexed
    split
    · split <;> simp_all
    · split <;> simp_all
  have classMemberText : classMemberText settings type name (module.getD []) = [] ↔
      isIndexed classMember type = false := by
    unfold DescriptionSort.classMemberText isIndexed
    split
    · simp_all [memberText_ne_nil named]
    · split
      · simp_all [memberText_ne_nil named]
      · split
        · simp_all [memberText_ne_nil named]
        · split
          · simp_all [memberText_ne_nil named]
          · simp_all
  cases sort with
  | general => exact absurd rfl notGeneral
  | moduleLevel => exact ⟨_, rfl, moduleLevelText⟩
  | classLike => exact ⟨_, rfl, classLikeText⟩
  | classMember => exact ⟨_, rfl, classMemberText⟩
  | decoratorFunction => exact ⟨_, rfl, moduleLevelText⟩
  | decoratorMethod => exact ⟨_, rfl, classMemberText⟩

end DescriptionSort

namespace DocumentNode

mutual

def indexTargets : DocumentNode → List Text
  | .index entries => entries.map IndexEntry.anchor
  | .target _ => []
  | .description _ _ _ content => allIndexTargets content

def allIndexTargets : List DocumentNode → List Text
  | [] => []
  | node :: nodes => node.indexTargets ++ allIndexTargets nodes

end

theorem allIndexTargets_append (first second : List DocumentNode) :
    allIndexTargets (first ++ second) = allIndexTargets first ++ allIndexTargets second := by
  induction first with
  | nil => rfl
  | cons node first ih =>
    rw [cons_append, allIndexTargets, ih, allIndexTargets, append_assoc]

/-- All that other places refer to or that refers to other places. -/
def links (nodes : List DocumentNode) : List Text × List Text :=
  (allAnchors nodes, allIndexTargets nodes)

end DocumentNode

/-- Two runs have the same modules, and under the condition the same of everything. -/
structure InStep (plain : Prop) (left right : ReferenceState) : Prop where
  modules_eq : left.tables.modules = right.tables.modules
  module_eq : left.module = right.module
  document_eq : left.document = right.document
  same : plain → left = right

namespace InStep

variable {plain : Prop} {first second third : ReferenceState}

theorem refl (state : ReferenceState) : InStep plain state state :=
  ⟨rfl, rfl, rfl, fun _ => rfl⟩

/-- Where the condition does not hold, both runs may take steps of their own. -/
theorem after {left right : ReferenceState} (notPlain : ¬ plain)
    (inStep : InStep plain first second) (leftward : InStep False first left)
    (rightward : InStep False second right) : InStep plain left right where
  modules_eq := leftward.modules_eq.symm.trans (inStep.modules_eq.trans rightward.modules_eq)
  module_eq := leftward.module_eq.symm.trans (inStep.module_eq.trans rightward.module_eq)
  document_eq := leftward.document_eq.symm.trans (inStep.document_eq.trans rightward.document_eq)
  same := fun holds => absurd holds notPlain

end InStep

namespace Describes

/-- From states in step, two actions lead to states in step.  They give values that are alike, or
fail alike. -/
def SideBySide {α : Type} (plain : Prop) (left right : Describes α) (alike : α → α → Prop) : Prop :=
  ∀ first second, InStep plain first second →
    InStep plain (left first).2 (right second).2 ∧
      ((∃ fault, (left first).1 = .error fault ∧ (right second).1 = .error fault) ∨
        ∃ value twin, (left first).1 = .ok value ∧ (right second).1 = .ok twin ∧ alike value twin)

namespace SideBySide

variable {α β : Type} {plain : Prop} {alike : α → α → Prop} {results : β → β → Prop}

theorem bind {left right : Describes α} {next other : α → Describes β}
    (first : SideBySide plain left right alike)
    (second : ∀ value twin, alike value twin → SideBySide plain (next value) (other twin) results) :
    SideBySide plain (left >>= next) (right >>= other) results := by
  intro state opposite inStep
  obtain ⟨middle, outcome⟩ := first state opposite inStep
  have unfoldLeft : (left >>= next) state =
      ExceptT.bindCont next (left state).1 (left state).2 := rfl
  have unfoldRight : (right >>= other) opposite =
      ExceptT.bindCont other (right opposite).1 (right opposite).2 := rfl
  rw [unfoldLeft, unfoldRight]
  obtain ⟨fault, leftFault, rightFault⟩ | ⟨value, twin, leftValue, rightValue, related⟩ := outcome
  · rw [leftFault, rightFault]
    exact ⟨middle, .inl ⟨fault, rfl, rfl⟩⟩
  · rw [leftValue, rightValue]
    exact second value twin related _ _ middle

theorem of_pure {value twin : β} (related : results value twin) :
    SideBySide plain (pure value) (pure twin) results := by
  intro first second inStep
  exact ⟨inStep, .inr ⟨value, twin, rfl, rfl, related⟩⟩

theorem of_throw (fault : Fault) :
    SideBySide plain (throw fault : Describes β) (throw fault) results := by
  intro first second inStep
  exact ⟨inStep, .inl ⟨fault, rfl, rfl⟩⟩

theorem of_get : SideBySide plain (get : Describes ReferenceState) get (InStep plain) := by
  intro first second inStep
  exact ⟨inStep, .inr ⟨first, second, rfl, rfl, inStep⟩⟩

theorem of_modify {change twin : ReferenceState → ReferenceState}
    (kept : ∀ first second, InStep plain first second → InStep plain (change first) (twin second)) :
    SideBySide plain (modify change : Describes Unit) (modify twin) fun _ _ => True := by
  intro first second inStep
  exact ⟨kept first second inStep, .inr ⟨(), (), rfl, rfl, trivial⟩⟩

theorem of_ok {outcome other : Except Fault β} {value twin : β} (ok : outcome = .ok value)
    (twinOk : other = .ok twin) (related : results value twin) :
    SideBySide plain (liftM outcome : Describes β) (liftM other) results := by
  rw [ok, twinOk]
  exact of_pure related

theorem of_same (action : Describes β) : SideBySide True action action Eq := by
  intro first second inStep
  obtain rfl := inStep.same trivial
  refine ⟨.refl _, ?_⟩
  cases outcome : (action first).1 with
  | error fault => exact .inl ⟨fault, rfl, rfl⟩
  | ok value => exact .inr ⟨value, value, rfl, rfl, rfl⟩

theorem of_succeeds {left right : Describes β} (notPlain : ¬ plain)
    (leftward : ∀ state, ∃ value after, left state = (.ok value, after) ∧ InStep False state after)
    (rightward : ∀ state, ∃ value after, right state = (.ok value, after) ∧
      InStep False state after)
    (related : ∀ value twin, results value twin) : SideBySide plain left right results := by
  intro first second inStep
  obtain ⟨value, after, given, moved⟩ := leftward first
  obtain ⟨twin, opposite, twinGiven, twinMoved⟩ := rightward second
  rw [given, twinGiven]
  exact ⟨inStep.after notPlain moved twinMoved, .inr ⟨value, twin, rfl, rfl, related value twin⟩⟩

theorem foldlM {step twin : α → β → Describes α} {items : List β}
    (each : ∀ item ∈ items, ∀ value other, alike value other →
      SideBySide plain (step value item) (twin other item) alike) :
    ∀ value other, alike value other →
      SideBySide plain (items.foldlM step value) (items.foldlM twin other) alike := by
  induction items with
  | nil => exact fun _ _ related => of_pure related
  | cons item items ih =>
    obtain ⟨first, others⟩ := forall_mem_cons.mp each
    intro value other related
    rw [foldlM_cons, foldlM_cons]
    exact bind (first value other related) (ih others)

end SideBySide

end Describes

namespace Directive

open Describes

variable {plain : Prop} {sort : DescriptionSort} {type : Text} {settings : DisplaySettings}
  {state : ReferenceState}

theorem describe_inStep (notGeneral : sort ≠ .general) (notModule : type ≠ "module")
    (options : NameTable (Option Text)) (unlisted : Bool) (described : Described) (text : Text)
    (state : ReferenceState) :
    ∃ result after, describe sort settings type options unlisted described text state =
      (.ok result, after) ∧ InStep False state after := by
  obtain ⟨result, entries, after, follows, describing, given⟩ :=
    @describe_succeeds state settings sort type notGeneral notModule options unlisted described text
  obtain ⟨noticed, isGiven⟩ := given state.tables state.notices
  refine ⟨result, _, isGiven, ?_, describing.keepsScope.module_eq.symm, follows.document_eq.symm,
    False.elim⟩
  rw [ReferenceTables.enterAll, describing.keepsScope.modules_eq]
  rfl

/-- The same names are described, with the same anchors and the same targets of the index. -/
def DescribedAlike (plain : Prop) (left right : Described) : Prop :=
  plain → left.names = right.names ∧
    left.nodes.flatMap SignatureNode.anchors = right.nodes.flatMap SignatureNode.anchors ∧
    left.entries.map IndexEntry.anchor = right.entries.map IndexEntry.anchor

private theorem enterSignature_sideBySide (notGeneral : sort ≠ .general) (module : Option Text)
    {name : Text} (named : name ≠ []) :
    SideBySide True (enterSignature sort settings.showSigns type module name)
      (enterSignature sort settings.hideSigns type module name) fun left right =>
        left.1.map Prod.snd = right.1.map Prod.snd ∧
          left.2.map IndexEntry.anchor = right.2.map IndexEntry.anchor := by
  obtain ⟨shown, isShown, shownEmpty⟩ := DescriptionSort.indexText_eq_nil_iff notGeneral named
    settings.showSigns type (module.map settings.showSigns.shown)
  obtain ⟨hidden, isHidden, hiddenEmpty⟩ := DescriptionSort.indexText_eq_nil_iff notGeneral named
    settings.hideSigns type (module.map settings.hideSigns.shown)
  apply SideBySide.bind (SideBySide.of_same (enterObject type (withModule module name)))
  intro entered twin sameEntered
  subst sameEntered
  apply SideBySide.bind (@SideBySide.of_ok _ _ (fun left right => left = [] ↔ right = []) _ _ _ _
    isShown isHidden (shownEmpty.trans hiddenEmpty.symm))
  intro text other sameEmpty
  apply SideBySide.of_pure
  constructor
  · cases entered <;> rfl
  · by_cases empty : text = []
    · rw [if_pos empty, if_pos (sameEmpty.mp empty)]
    · rw [if_neg empty, if_neg (fun otherEmpty => empty (sameEmpty.mpr otherEmpty))]
      rfl

/-- Whether the signature can be read does not depend on the settings, and a signature without
signs of its own is described alike. -/
theorem describe_sideBySide (notGeneral : sort ≠ .general) (notModule : type ≠ "module")
    (options : NameTable (Option Text)) (unlisted : Bool) {text : Text}
    (unsigned : plain → isSigned text = false)
    (described other : Described) (related : DescribedAlike plain described other) :
    SideBySide plain (describe sort settings.showSigns type options unlisted described text)
      (describe sort settings.hideSigns type options unlisted other text)
      (DescribedAlike plain) := by
  by_cases isPlain : plain
  · obtain rfl : plain = True := propext (iff_true_intro isPlain)
    obtain ⟨sameNames, sameAnchors, sameTargets⟩ := related trivial
    apply SideBySide.bind SideBySide.of_get
    intro state twin inStep
    obtain rfl := inStep.same trivial
    cases accepted : ofDescription? text with
    | none =>
      have unread : ∀ settings : DisplaySettings, readSignature? sort settings type state.class?
          ⟨optionOr options "module" state.module, optionOr options "annotation" none⟩ text =
            none := by
        intro settings
        rw [readSignature?, accepted]
        rfl
      dsimp only
      rw [unread, unread]
      apply SideBySide.of_pure
      intro _
      exact ⟨sameNames, by simp [sameAnchors], sameTargets⟩
    | some parts =>
      have plainName : hasPackageSign parts.fullName = false := by
        simpa [isSigned, accepted] using unsigned trivial
      obtain ⟨kept, hidden, isKept, isHidden, sameFull, samePath, named⟩ :=
        readSignature?_unsigned accepted plainName sort settings type state.class?
          ⟨optionOr options "module" state.module, optionOr options "annotation" none⟩
      dsimp only
      rw [isKept, isHidden]
      dsimp only
      rw [sameFull, samePath, ← sameNames]
      by_cases known : described.names.contains (kept.fullName, kept.path)
      · rw [if_pos known, if_pos known]
        apply SideBySide.of_pure
        intro _
        exact ⟨rfl, by simp [sameAnchors, SignatureNode.anchors], sameTargets⟩
      · rw [if_neg known, if_neg known]
        cases unlisted with
        | true =>
          apply SideBySide.bind (SideBySide.of_same (pure (none, [])))
          intro entered twin same
          subst same
          apply SideBySide.of_pure
          intro _
          exact ⟨by simp [sameNames], by simp [sameAnchors, SignatureNode.anchors],
            by simp [sameTargets]⟩
        | false =>
          apply SideBySide.bind (enterSignature_sideBySide notGeneral _ named)
          intro entered twin same
          apply SideBySide.of_pure
          intro _
          exact ⟨by simp [sameNames], by simp [sameAnchors, SignatureNode.anchors, same.1],
            by simp [sameTargets, same.2]⟩
  · exact .of_succeeds isPlain (describe_inStep notGeneral notModule _ _ _ _)
      (describe_inStep notGeneral notModule _ _ _ _) fun _ _ holds => absurd holds isPlain

mutual

/-- Whether a signature in the directive or in its content is written with package signs. -/
def isSigned (settings : DisplaySettings) : Directive → Bool
  | .mk name argument _ content =>
    (sortAndType? name).isSome &&
      ((signatures settings argument).any SignatureParts.isSigned || areSigned settings content)

def areSigned (settings : DisplaySettings) : List Directive → Bool
  | [] => false
  | directive :: rest => isSigned settings directive || areSigned settings rest

end

/-- Nodes that lead to the same places and are led to from the same places. -/
def LinkedAlike (plain : Prop) (left right : List DocumentNode) : Prop :=
  plain → links left = links right

private theorem describeModule_sideBySide (argument : Text) (options : NameTable (Option Text)) :
    SideBySide plain (describeModule settings.showSigns argument options)
      (describeModule settings.hideSigns argument options) (LinkedAlike plain) := by
  apply SideBySide.bind (SideBySide.of_modify ?_)
  · intro _ _ _
    split
    · exact .of_pure fun _ => rfl
    · apply SideBySide.bind (SideBySide.of_modify ?_)
      · intro _ _ _
        exact .of_pure fun _ => rfl
      · intro first second inStep
        refine ⟨?_, inStep.module_eq, inStep.document_eq, fun holds => by rw [inStep.same holds]⟩
        dsimp only
        rw [inStep.modules_eq, inStep.document_eq]
  · intro first second inStep
    exact ⟨inStep.modules_eq, rfl, inStep.document_eq, fun holds => by rw [inStep.same holds]⟩

mutual

private theorem run_sideBySide (directive : Directive)
    (unsigned : plain → directive.isSigned settings = false) :
    SideBySide plain (run settings.showSigns directive) (run settings.hideSigns directive)
      (LinkedAlike plain) := by
  cases directive with
  | mk name argument options content =>
    rw [run, run]
    rw [isSigned] at unsigned
    cases found : sortAndType? name with
    | some sortAndType =>
      obtain ⟨sort, type⟩ := sortAndType
      rw [found] at unsigned
      have separately : ∀ holds : plain,
          (∀ text ∈ signatures settings argument, SignatureParts.isSigned text = false) ∧
            areSigned settings content = false := by
        intro holds
        have both := unsigned holds
        simpa using both
      obtain ⟨notGeneral, notModule⟩ := sortAndType?_spec found
      dsimp only
      have texts : SideBySide plain
          ((signatures settings.showSigns argument).foldlM (describe sort settings.showSigns type
            options (options.contains "noindex" || options.contains "no-index")) {})
          ((signatures settings.hideSigns argument).foldlM (describe sort settings.hideSigns type
            options (options.contains "noindex" || options.contains "no-index")) {})
          (DescribedAlike plain) :=
        SideBySide.foldlM (fun text member => describe_sideBySide notGeneral notModule options _
          fun holds => (separately holds).1 text member) {} {} fun _ => ⟨rfl, rfl, rfl⟩
      apply SideBySide.bind texts
      intro described twin related
      apply SideBySide.bind SideBySide.of_get
      intro first second inStep
      have sameClass : plain → contentClass? sort first.class? described.names =
          contentClass? sort second.class? twin.names := by
        intro holds
        rw [inStep.same holds, (related holds).1]
      refine .bind (.of_modify ?entered) fun _ _ _ => ?_
      rotate_left
      apply SideBySide.bind (runAll_sideBySide content fun holds => (separately holds).2)
      intro nodes others linked
      refine .bind (.of_modify ?left) fun _ _ _ => .of_pure fun holds => ?_
      case entered | left =>
        intro third fourth inside
        refine ⟨inside.modules_eq, inside.module_eq, inside.document_eq, ?_⟩
        intro holds
        rw [inside.same holds, sameClass holds]
      obtain ⟨_, sameAnchors, sameTargets⟩ := related holds
      have sameLinks := linked holds
      rw [links, links, Prod.mk.injEq] at sameLinks
      simp [links, allAnchors, anchors, allIndexTargets, indexTargets, sameAnchors, sameTargets,
        sameLinks]
    | none =>
      dsimp only
      split
      · exact describeModule_sideBySide argument options
      · split
        · apply SideBySide.bind (SideBySide.of_modify ?_)
          · intro _ _ _
            exact .of_pure fun _ => rfl
          · intro first second inStep
            exact ⟨inStep.modules_eq, rfl, inStep.document_eq,
              fun holds => by rw [inStep.same holds]⟩
        · exact .of_throw _

theorem runAll_sideBySide (directives : List Directive)
    (unsigned : plain → areSigned settings directives = false) :
    SideBySide plain (runAll settings.showSigns directives) (runAll settings.hideSigns directives)
      (LinkedAlike plain) := by
  cases directives with
  | nil =>
    rw [runAll, runAll]
    exact .of_pure fun _ => rfl
  | cons directive rest =>
    rw [runAll, runAll]
    rw [areSigned] at unsigned
    have separately : ∀ holds : plain, directive.isSigned settings = false ∧
        areSigned settings rest = false := by
      intro holds
      exact Bool.or_eq_false_iff.mp (unsigned holds)
    apply SideBySide.bind (run_sideBySide directive fun holds => (separately holds).1)
    intro first twin linkedFirst
    apply SideBySide.bind (runAll_sideBySide rest fun holds => (separately holds).2)
    intro others twins linkedOthers
    apply SideBySide.of_pure
    intro holds
    have sameFirst := linkedFirst holds
    have sameOthers := linkedOthers holds
    rw [links, links, Prod.mk.injEq] at sameFirst sameOthers
    rw [links, links, allAnchors_append,
      allAnchors_append, allIndexTargets_append,
      allIndexTargets_append, sameFirst.1, sameFirst.2, sameOthers.1, sameOthers.2]

end

theorem withModule_injective (module : Option Text) {first second : Text}
    (same : withModule module first = withModule module second) : first = second := by
  unfold withModule at same
  split at same
  · exact append_cancel_left same
  · exact same

private theorem run_single {name argument text document : Text} {options : NameTable (Option Text)}
    {parts : SignatureParts} (found : sortAndType? name = some (sort, type))
    (single : signatures settings argument = [text])
    (accepted : ofDescription? text = some parts)
    (listed : (options.contains "noindex" || options.contains "no-index") = false) :
    (run settings (.mk name argument options []) { document }).2.tables.objects =
      Table.insert {} (withModule (optionOr options "module" none) (settings.shown parts.fullName))
        ⟨document, type⟩ := by
  obtain ⟨notGeneral, notModule⟩ := sortAndType?_spec found
  have fullName := qualify_shown accepted settings
  have read := readSignature?_of_accepted accepted sort settings type none
    ⟨optionOr options "module" none, optionOr options "annotation" none⟩
  dsimp only [Option.filter_none] at read
  obtain ⟨indexed, isIndexed⟩ := @indexText_ok settings sort type notGeneral
    (settings.shown parts.fullName) ((optionOr options "module" none).map settings.shown)
  have entered : (run settings (.mk name argument options [])).Succeeds { document }
      fun _ entries _ => entries = [.object (withModule (optionOr options "module" none)
        (settings.shown parts.fullName)) ⟨document, type⟩] := by
    rw [run, found]
    dsimp only
    rw [single, foldlM_cons, listed]
    refine .bind (.bind (.of_get (fun _ _ => rfl) ?_))
    dsimp only
    rw [read]
    dsimp only
    rw [fullName]
    refine .bind (.bind ⟨true, [.object _ ⟨document, type⟩], { document, anchors := [_] },
      ⟨rfl, rfl, forall_mem_singleton.mpr ⟨rfl, notModule⟩⟩, ?_, fun _ notices => ⟨_, rfl⟩⟩)
    refine .bind (.of_ok isIndexed (.of_pure (.of_pure (.of_pure ?_))))
    refine .of_get (fun _ _ => rfl) (.bind (.of_modify (fun _ _ => rfl) ?_))
    rw [runAll]
    exact .bind (.of_pure (.bind (.of_modify (fun _ _ => rfl) (.of_pure rfl))))
  obtain ⟨_, entries, after, _, rfl, given⟩ := entered
  obtain ⟨_, isGiven⟩ := given {} []
  rw [isGiven]
  rfl

end Directive

/-- Package signs of modules only matter for what is shown.  Whether they are hidden or not, the
modules are entered under the same names.  Where no signature has package signs of its own, all
else is the same too: the reference tables, the scope and the notices, the anchors that are placed
and those that the index leads to, or the fault.  A single description with such signs shows that
this is needed: its object is entered under the same name just if there are none. -/
theorem package_signs_of_modules_only_shown (settings : DisplaySettings) :
    (∀ (directives : List Directive) (state : ReferenceState),
      let shown := Directive.runAll settings.showSigns directives state
      let hidden := Directive.runAll settings.hideSigns directives state
      shown.2.tables.modules = hidden.2.tables.modules ∧ shown.2.module = hidden.2.module ∧
      (Directive.areSigned settings directives = false →
        shown.2 = hidden.2 ∧
          shown.1.map DocumentNode.links = hidden.1.map DocumentNode.links)) ∧
    ∀ (name argument text document : Text) (options : NameTable (Option Text))
      (parts : SignatureParts),
      (Directive.sortAndType? name).isSome → Directive.signatures settings argument = [text] →
      SignatureParts.ofDescription? text = some parts →
      (options.contains "noindex" || options.contains "no-index") = false →
      ((Directive.run settings.showSigns (.mk name argument options [])
          { document }).2.tables.objects =
        (Directive.run settings.hideSigns (.mk name argument options [])
          { document }).2.tables.objects ↔
        hasPackageSign parts.fullName = false) := by
  constructor
  · intro directives state shown hidden
    have unsigned : ∀ plain : Prop, (plain → Directive.areSigned settings directives = false) →
        InStep plain shown.2 hidden.2 ∧ _ := fun plain unsigned =>
      Directive.runAll_sideBySide directives unsigned state state (.refl state)
    obtain ⟨inStep, _⟩ := unsigned False False.elim
    refine ⟨inStep.modules_eq, inStep.module_eq, ?_⟩
    intro noSigns
    obtain ⟨same, outcome⟩ := unsigned True fun _ => noSigns
    refine ⟨same.same trivial, ?_⟩
    obtain ⟨fault, shownFault, hiddenFault⟩ | ⟨nodes, others, isShown, isHidden, linked⟩ := outcome
    · rw [shownFault, hiddenFault]
    · rw [isShown, isHidden]
      exact congrArg Except.ok (linked trivial)
  · intro name argument text document options parts described single accepted listed
    obtain ⟨⟨sort, type⟩, found⟩ := Option.isSome_iff_exists.mp described
    have singleShown : Directive.signatures settings.showSigns argument = [text] := single
    have singleHidden : Directive.signatures settings.hideSigns argument = [text] := single
    rw [Directive.run_single found singleShown accepted listed,
      Directive.run_single found singleHidden accepted listed, ← withoutPackageSigns_eq_self_iff]
    rw [DisplaySettings.shown_showSigns, DisplaySettings.shown_hideSigns, id]
    constructor
    · intro sameTables
      have sameKeys := congrArg (fun table => table.entries.map Prod.fst) sameTables
      exact (Directive.withModule_injective _ (List.cons.inj sameKeys).1).symm
    · intro unsigned
      rw [unsigned]

/-- A class in a package with a method in its content, and a function in the module `+lib`. -/
def packagedModule : List Directive :=
  [.mk "module" "+lib" {} [],
   .mk "class" "Disk" {} [.mk "method" "area(unit)" {} []],
   .mk "function" "scale(x)" ⟨[("module", some "+lib.+tools")]⟩ []]

theorem package_signs_of_modules_only_shown_packaged :
    Directive.areSigned {} packagedModule = false ∧
    (Directive.runAll (DisplaySettings.showSigns {}) packagedModule { document := "index" }).2 =
      (Directive.runAll (DisplaySettings.hideSigns {}) packagedModule { document := "index" }).2 ∧
    hasPackageSign "+lib.scale" = true ∧
    ((Directive.run (DisplaySettings.showSigns {}) (.mk "function" "+lib.scale(x)" {} [])
        { document := "index" }).2.tables.objects ≠
      (Directive.run (DisplaySettings.hideSigns {}) (.mk "function" "+lib.scale(x)" {} [])
        { document := "index" }).2.tables.objects) :=
  have only := package_signs_of_modules_only_shown {}
  have unsigned : Directive.areSigned {} packagedModule = false := by decide +kernel
  have accepted : SignatureParts.ofDescription? "+lib.scale(x)" =
      some { path := some "+lib.", name := "scale", arguments := some "x", returned := none } := by
    decide +kernel
  have signed : hasPackageSign "+lib.scale" = true := by decide
  ⟨unsigned, ((only.1 packagedModule { document := "index" }).2.2 unsigned).1, signed, fun same =>
    absurd ((only.2 "function" "+lib.scale(x)" "+lib.scale(x)" "index" {} _ rfl rfl accepted
      rfl).mp same) (by decide)⟩

/-- A function that is described as `+lib.scale` cannot be referred to by this name once package
signs are hidden. -/
theorem signed_function_entered_unsigned :
    (Directive.runAll { keepPackageSigns := true } [.mk "function" "+lib.scale(x)" {} []]
      { document := "index" }).2.tables.objects.keys = ["+lib.scale".toList] ∧
    (Directive.runAll { keepPackageSigns := false } [.mk "function" "+lib.scale(x)" {} []]
      { document := "index" }).2.tables.objects.keys = ["lib.scale".toList] := by
  decide +kernel

end MatlabDocs
