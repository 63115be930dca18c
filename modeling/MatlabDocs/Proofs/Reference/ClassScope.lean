import MatlabDocs.Proofs.Reference.Entering

/-!
# The class in scope

A description may put its content into the scope of a class, and takes that scope back when
its content ends.  What it leaves is no class at all, not the class that was in scope before.
Outside of a class this makes no difference.  Inside of a class, the scope is the same again
unless a class was described on the way, and all that follows is described outside of it.
-/

namespace MatlabDocs

/-- The class in whose scope the next description stands. -/
def ReferenceState.scope (state : ReferenceState) : Option Text :=
  state.class?.filter (· ≠ [])

theorem Describes.bind_of_ok {α β : Type} {action : Describes α} {next : α → Describes β}
    {before middle : ReferenceState} {value : α} (given : action before = (.ok value, middle)) :
    (action >>= next) before = next value middle := by
  have unfolded : (action >>= next) before =
      ExceptT.bindCont next (action before).1 (action before).2 := rfl
  rw [unfolded, given]
  rfl

namespace Directive

open Describes DocumentNode

mutual

/-- Whether a directive describes objects or a module or sets the current module, and so do
those in its content. -/
def isKnown : Directive → Bool
  | .mk name _ _ content =>
    if (sortAndType? name).isSome then areKnown content
    else name == "module" || name == "currentmodule"

def areKnown : List Directive → Bool
  | [] => true
  | directive :: rest => isKnown directive && areKnown rest

end

mutual

/-- Whether a class is described, by the directive itself or in its content. -/
def holdsClass (settings : DisplaySettings) : Directive → Bool
  | .mk name argument _ content =>
    match sortAndType? name with
    | some (sort, _) =>
      (sort == .classLike && (signatures settings argument).any isReadable) ||
        holdClass settings content
    | none => false

def holdClass (settings : DisplaySettings) : List Directive → Bool
  | [] => false
  | directive :: rest => holdsClass settings directive || holdClass settings rest

end

variable {settings : DisplaySettings} {sort : DescriptionSort} {type : Text}
  {state : ReferenceState}

variable {scopeClass : Option Text} (directives : List Directive)

theorem holdClass_eq_any :
    holdClass settings directives = directives.any (holdsClass settings) := by
  induction directives with
  | nil => rfl
  | cons directive rest ih => rw [holdClass, ih, List.any_cons]

theorem areKnown_eq_all : areKnown directives = directives.all isKnown := by
  induction directives with
  | nil => rfl
  | cons directive rest ih => rw [areKnown, ih, List.all_cons]

/-- A description sets a class for its content if it describes a class, or else only where there
is none. -/
theorem contentClass?_isSome {names : List (Text × Option Text)}
    (sets : (contentClass? sort scopeClass names).isSome) :
    (sort = .classLike ∧ names ≠ []) ∨ scopeClass.filter (· ≠ []) = none := by
  have member : sort = .classMember ∨ sort = .decoratorMethod →
      scopeClass.filter (· ≠ []) = none := by
    intro isMember
    unfold contentClass? at sets
    rcases isMember with rfl | rfl
    all_goals
      dsimp only at sets
      split at sets
      · split at sets
        · cases sets
        · rename_i outside
          exact Option.not_isSome_iff_eq_none.mp outside
      · cases sets
  cases sort with
  | classLike =>
    left
    refine ⟨rfl, ?_⟩
    rintro rfl
    cases sets
  | classMember => exact .inr (member (.inl rfl))
  | decoratorMethod => exact .inr (member (.inr rfl))
  | general => cases sets
  | moduleLevel => cases sets
  | decoratorFunction => cases sets

/-- What is left of the scope, with or without a class described on the way. -/
structure LeavesScope (opened : Bool) (before after : ReferenceState) : Prop where
  scope_eq : after.scope = if opened then none else before.scope
  class?_eq : after.class? = before.class? ∨ after.class? = none

namespace LeavesScope

variable {first second third : ReferenceState} {opened more : Bool}

theorem of_class?_eq (same : second.class? = first.class?) : LeavesScope false first second where
  scope_eq := by rw [ReferenceState.scope, same]; rfl
  class?_eq := .inl same

theorem trans (left : LeavesScope opened first second) (right : LeavesScope more second third) :
    LeavesScope (opened || more) first third where
  scope_eq := by
    rw [right.scope_eq, left.scope_eq]
    cases opened <;> cases more <;> rfl
  class?_eq := by
    rcases right.class?_eq with same | gone
    · rw [same]
      exact left.class?_eq
    · exact .inr gone

theorem of_content {names : List (Text × Option Text)} {texts : List Text}
    (unnamed : names = [] ↔ texts.any isReadable = false)
    (leaves : LeavesScope more
      { first with class? := (contentClass? sort first.class? names).or first.class? } second) :
    LeavesScope ((sort == .classLike && texts.any isReadable) || more) first
      { second with
        class? := if (contentClass? sort first.class? names).isSome then none
          else second.class? } := by
  cases set : contentClass? sort first.class? names with
  | some inner =>
    -- The class of the content is taken back, whatever the content does.
    have sets : (contentClass? sort first.class? names).isSome := by
      rw [set]
      rfl
    refine ⟨?_, .inr rfl⟩
    rcases contentClass?_isSome sets with ⟨rfl, named⟩ | outside
    · have readable : texts.any isReadable = true := by
        rw [← Bool.not_eq_false]
        exact fun unreadable => named (unnamed.mpr unreadable)
      simp [readable, ReferenceState.scope]
    · have noScope : first.scope = none := outside
      rw [noScope, ite_self]
      rfl
  | none =>
    have notOpened : (sort == .classLike && texts.any isReadable) = false := by
      cases sort with
      | classLike => exact unnamed.mp (List.head?_eq_none_iff.mp (Option.map_eq_none_iff.mp set))
      | _ => rfl
    rw [set] at leaves
    rw [notOpened, Bool.false_or]
    exact ⟨leaves.scope_eq, leaves.class?_eq⟩

theorem exists_run {α : Type} {action : Describes α} {placed : α → List TableEntry → Prop}
    (succeeds : action.Succeeds first fun value entries after =>
      placed value entries ∧ LeavesScope opened first after) :
    ∃ value after, action first = (.ok value, after) ∧ LeavesScope opened first after := by
  obtain ⟨value, entries, after, _, ⟨_, leaves⟩, given⟩ := succeeds
  obtain ⟨noticed, ran⟩ := given first.tables first.notices
  exact ⟨value, _, ran, leaves.scope_eq, leaves.class?_eq⟩

end LeavesScope

private theorem describeModule_succeeds (argument : Text) (options : NameTable (Option Text)) :
    (describeModule settings argument options).Succeeds state fun nodes entries after =>
      allAnchors nodes = entries.map TableEntry.anchor ∧ LeavesScope false state after := by
  refine .bind (.of_modify (fun _ _ => rfl) ?_)
  split
  · exact .of_pure ⟨rfl, .of_class?_eq rfl⟩
  · let entry : ModuleEntry :=
      { document := state.document
        synopsis := optionOr options "synopsis" (some [])
        platform := optionOr options "platform" (some [])
        deprecated := options.contains "deprecated" }
    refine .bind ⟨(), [.module argument.strip entry],
      { state with
        module := some argument.strip
        anchors := state.anchors ++ [moduleAnchor argument.strip] },
      ⟨rfl, rfl, List.forall_mem_singleton.mpr rfl⟩, .of_pure ⟨rfl, .of_class?_eq rfl⟩,
      fun tables notices => ⟨notices, rfl⟩⟩

mutual

theorem run_succeeds (directive : Directive) (known : directive.isKnown) (state : ReferenceState) :
    (run settings directive).Succeeds state fun nodes entries after =>
      allAnchors nodes = entries.map TableEntry.anchor ∧
        LeavesScope (directive.holdsClass settings) state after := by
  cases directive with
  | mk name argument options content =>
    rw [run, holdsClass]
    rw [isKnown] at known
    cases found : sortAndType? name with
    | some sortAndType =>
      obtain ⟨sort, type⟩ := sortAndType
      rw [found] at known
      dsimp only
      obtain ⟨notGeneral, notModule⟩ := sortAndType?_spec found
      refine .bind ((describeAll_succeeds notGeneral notModule _ _ _ _).mono ?_)
      intro described entries middle describing
      have unnamed : described.names = [] ↔ (signatures settings argument).any isReadable = false :=
        describing.unnamed_iff.trans (and_iff_right rfl)
      -- The class in scope is set before the content is run and taken back after it.
      refine .of_get (fun _ _ => rfl) (.bind (.of_modify (fun _ _ => rfl) ?_))
      refine .bind ((runAll_succeeds content known _).mono ?_)
      rintro contentNodes more inner ⟨others, leaves⟩
      refine .bind (.of_modify (fun _ _ => rfl) (.of_pure ⟨?_, ?_⟩))
      · have first : described.nodes.flatMap SignatureNode.anchors =
            entries.map TableEntry.anchor := describing.placed
        simp [allAnchors, anchors, first, others]
      · have sameScope : LeavesScope false state middle :=
          .of_class?_eq describing.keepsScope.class?_eq
        exact sameScope.trans (.of_content unnamed leaves)
    | none =>
      rw [found] at known
      have either : (name == "module" || name == "currentmodule") = true := known
      dsimp only
      split
      · exact describeModule_succeeds argument options
      · rename_i notModule
        rw [Bool.or_eq_true] at either
        rw [if_pos (either.resolve_left notModule)]
        exact .bind (.of_modify (fun _ _ => rfl) (.of_pure ⟨rfl, .of_class?_eq rfl⟩))

theorem runAll_succeeds (directives : List Directive) (known : areKnown directives)
    (state : ReferenceState) :
    (runAll settings directives).Succeeds state fun nodes entries after =>
      allAnchors nodes = entries.map TableEntry.anchor ∧
        LeavesScope (holdClass settings directives) state after := by
  cases directives with
  | nil =>
    rw [runAll]
    exact .of_pure ⟨rfl, .of_class?_eq rfl⟩
  | cons directive rest =>
    rw [areKnown, Bool.and_eq_true] at known
    rw [runAll, holdClass]
    refine .bind ((run_succeeds directive known.1 state).mono ?_)
    rintro first entries middle ⟨firstPlaced, leavesFirst⟩
    refine .bind ((runAll_succeeds rest known.2 middle).mono ?_)
    rintro others more after ⟨othersPlaced, leavesOthers⟩
    refine .of_pure ⟨?_, leavesFirst.trans leavesOthers⟩
    simp [allAnchors_append, firstPlaced, othersPlaced]

end

private theorem runAll_append (earlier later : List Directive) :
    runAll settings (earlier ++ later) = do
      let first ← runAll settings earlier
      let others ← runAll settings later
      return first ++ others := by
  induction earlier with
  | nil =>
    rw [List.nil_append, runAll]
    simp only [pure_bind, List.nil_append, bind_pure]
  | cons directive rest ih =>
    rw [List.cons_append, runAll, ih, runAll]
    simp only [bind_assoc, pure_bind, List.append_assoc]

/-- Directives that stand side by side are run one after the other.  Before each of them the scope
is that of the first one, if no class was described on the way, and otherwise there is none.  The
directive with its content does the same to it: it gives back the scope of a class just if it
describes no class, and outside of all classes it always leaves no class. -/
theorem class_scope_of_siblings (settings : DisplaySettings) (state : ReferenceState)
    (earlier : List Directive) (directive : Directive) (later : List Directive)
    (known : (earlier ++ directive :: later).all isKnown) :
    ∃ nodes middle own behind others after,
      runAll settings earlier state = (.ok nodes, middle) ∧
      run settings directive middle = (.ok own, behind) ∧
      runAll settings later behind = (.ok others, after) ∧
      runAll settings (earlier ++ directive :: later) state =
        (.ok (nodes ++ (own ++ others)), after) ∧
      LeavesScope (earlier.any (holdsClass settings)) state middle ∧
      LeavesScope (directive.holdsClass settings) middle behind := by
  rw [List.all_append, List.all_cons, Bool.and_eq_true, Bool.and_eq_true, ← areKnown_eq_all,
    ← areKnown_eq_all] at known
  obtain ⟨knownEarlier, knownDirective, knownLater⟩ := known
  obtain ⟨nodes, middle, ranEarlier, leavesEarlier⟩ :=
    LeavesScope.exists_run (@runAll_succeeds settings earlier knownEarlier state)
  obtain ⟨own, behind, ran, leaves⟩ :=
    LeavesScope.exists_run (@run_succeeds settings directive knownDirective middle)
  obtain ⟨others, after, ranLater, _⟩ :=
    LeavesScope.exists_run (@runAll_succeeds settings later knownLater behind)
  rw [holdClass_eq_any] at leavesEarlier
  refine ⟨nodes, middle, own, behind, others, after, ranEarlier, ran, ranLater, ?_, leavesEarlier,
    leaves⟩
  rw [runAll_append, bind_of_ok ranEarlier, runAll, bind_assoc, bind_of_ok ran, bind_assoc,
    bind_of_ok ranLater]
  rfl

def optionsClass : Directive :=
  .mk "class" "Options" {} [.mk "method" "check()" {} []]

theorem class_scope_of_siblings_optionsClass :
    ∃ middle behind : ReferenceState,
      (∃ nodes, runAll {} [.mk "attribute" "radius" {} []]
        { class? := some "Disk", document := "index" } = (.ok nodes, middle)) ∧
      (∃ own, run {} optionsClass middle = (.ok own, behind)) ∧
      middle.scope = some "Disk".toList ∧ behind.scope = none := by
  obtain ⟨nodes, middle, own, behind, others, after, ranEarlier, ran, ranLater, ranAll,
    leavesEarlier, leaves⟩ :=
    class_scope_of_siblings {} { class? := some "Disk", document := "index" }
      [.mk "attribute" "radius" {} []] optionsClass [.mk "method" "area()" {} []]
      (by decide +kernel)
  have noClass : [Directive.mk "attribute" "radius" {} []].any (holdsClass {}) = false := by
    decide +kernel
  have aClass : optionsClass.holdsClass {} = true := by decide +kernel
  rw [noClass] at leavesEarlier
  rw [aClass] at leaves
  exact ⟨middle, behind, ⟨nodes, ranEarlier⟩, ⟨own, ran⟩, leavesEarlier.scope_eq, leaves.scope_eq⟩

/-- A method that is described in a class, but behind another class, is entered as if it stood in
no class. -/
theorem nested_class_ends_scope :
    (run {} (.mk "class" "Disk" {} [.mk "attribute" "radius" {} [], optionsClass,
        .mk "method" "area()" {} []]) { document := "index" }).2.tables.objects.keys =
      ["Disk", "Disk.radius", "Disk.Options", "Disk.Options.check", "area"].map String.toList := by
  decide +kernel

end Directive

end MatlabDocs
