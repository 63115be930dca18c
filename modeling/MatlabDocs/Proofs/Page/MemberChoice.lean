import Mathlib.Data.List.Forall2
import MatlabDocs.Page.Members
import MatlabDocs.Proofs.Catalog.Changes

/-!
# The choice of members

A member may fall under several restrictions at once, but only the first of them decides whether
it is described.  Which one this is depends on the member alone.  So wider options keep all that
narrower ones keep, whatever is said about skipping members by their names.
-/

namespace MatlabDocs

open List

namespace MemberTraits

/-- Whether a member falls under a restriction; it may fall under several. -/
def fallsUnder (traits : MemberTraits) : Restriction → Bool
  | .privateMember => traits.hasAccess "private"
  | .protectedMember => traits.hasAccess "protected"
  | .hiddenMember => traits.isHidden
  | .friendMember => traits.isFriend.toOption == some true

/-- All restrictions of a member, in the order in which they are looked for. -/
def restrictions (traits : MemberTraits) : List Restriction :=
  [.privateMember, .protectedMember, .hiddenMember, .friendMember].filter traits.fallsUnder

variable {traits : MemberTraits} {options wider : EntryOptions}

private theorem restriction?_eq : traits.restriction? = (do
    if traits.fallsUnder .privateMember then return some .privateMember
    else if traits.fallsUnder .protectedMember then return some .protectedMember
    else if traits.fallsUnder .hiddenMember then return some .hiddenMember
    else if ← traits.isFriend then return some .friendMember
    else return none) :=
  rfl

/-- Where no fault comes in between, the first restriction is found. -/
theorem head?_restrictions {first : Option Restriction} (found : traits.restriction? = .ok first) :
    traits.restrictions.head? = first := by
  rw [restriction?_eq] at found
  rw [restrictions, head?_filter]
  split at found
  · rename_i isPrivate
    cases found
    exact find?_cons_of_pos isPrivate
  rename_i notPrivate
  rw [find?_cons_of_neg notPrivate]
  split at found
  · rename_i isProtected
    cases found
    exact find?_cons_of_pos isProtected
  rename_i notProtected
  rw [find?_cons_of_neg notProtected]
  split at found
  · rename_i isHidden
    cases found
    exact find?_cons_of_pos isHidden
  rename_i notHidden
  rw [find?_cons_of_neg notHidden]
  rcases isFriend : traits.isFriend with fault | _ | _
  all_goals
    rw [isFriend] at found
    cases found
  · exact find?_cons_of_neg (by simp [fallsUnder, isFriend, Except.toOption])
  · exact find?_cons_of_pos (by simp [fallsUnder, isFriend, Except.toOption])

/-- The access that is stated, or else the read access. -/
def access? (traits : MemberTraits) : Option AttributeValue :=
  (traits.stated? "Access").or (traits.stated? "GetAccess")

/-- The restriction that an access makes. -/
def restrictionOf : AttributeValue → Option Restriction
  | .word access =>
    if access.startsWith "?" then some .friendMember
    else if access == "private" then some .privateMember
    else if access == "protected" then some .protectedMember
    else none
  | .items _ => some .friendMember
  | .flag _ => none

private theorem access?_of_hasAccess {access : Text} (has : traits.hasAccess access) :
    traits.access? = some (.word access) := by
  rw [hasAccess] at has
  rw [access?]
  split at has
  · rename_i value stated
    rw [stated, Option.some_or, eq_of_beq has]
  · rename_i stated
    rw [stated, Option.none_or, eq_of_beq has]

/-- All restrictions but that of a hidden member are made by the one access. -/
theorem restrictionOf_access? {restriction : Restriction} (falls : traits.fallsUnder restriction)
    (notHidden : restriction ≠ .hiddenMember) :
    traits.access?.bind restrictionOf = some restriction := by
  cases restriction with
  | privateMember =>
    rw [access?_of_hasAccess falls]
    rfl
  | protectedMember =>
    rw [access?_of_hasAccess falls]
    rfl
  | hiddenMember => exact absurd rfl notHidden
  | friendMember =>
    have isFriend : traits.isFriend.toOption = some true := eq_of_beq falls
    rw [MemberTraits.isFriend] at isFriend
    rw [access?]
    split at isFriend
    · rename_i values stated
      rw [stated]
      rfl
    · rename_i value stated
      have friend : value.startsWith "?" := Option.some.inj isFriend
      rw [stated]
      exact if_pos friend
    · cases isFriend
    · cases isFriend

/-- Whether a member is kept if a restriction decides, or none. -/
def isKeptUnder (options : EntryOptions) (traits : MemberTraits) : Option Restriction → Bool
  | some restriction =>
    isAdmitted options traits restriction && (traits.documented || options.withUndocumented)
  | none => traits.analyzed || (traits.documented || options.withUndocumented)

/-- Whether a member is kept if the first of its restrictions decides. -/
def isShown (options : EntryOptions) (traits : MemberTraits) : Bool :=
  isKeptUnder options traits traits.restrictions.head?

section

variable (shown : traits.isShown options)
include shown

theorem isAdmitted_head : ∀ first ∈ traits.restrictions.head?, isAdmitted options traits first := by
  intro first isFirst
  rw [isShown, Option.mem_def.mp isFirst, isKeptUnder, Bool.and_eq_true] at shown
  exact shown.1

/-- The first restriction is the only one, unless a hidden member is also restricted otherwise. -/
theorem isAdmitted_of_single
    (single : traits.isHidden = false ∨ traits.restrictions = [.hiddenMember]) :
    ∀ restriction ∈ traits.restrictions, isAdmitted options traits restriction := by
  intro restriction member
  apply isAdmitted_head shown
  rcases single with notHidden | onlyHidden
  · obtain ⟨first, others, all⟩ := exists_cons_of_ne_nil (ne_nil_of_mem member)
    have byAccess : ∀ other ∈ traits.restrictions,
        traits.access?.bind restrictionOf = some other := by
      intro other isOther
      have falls := (mem_filter.mp isOther).2
      apply restrictionOf_access? falls
      rintro rfl
      exact absurd falls (Bool.eq_false_iff.mp notHidden)
    have isFirst := byAccess first (by rw [all]; exact mem_cons_self)
    rw [all, head?_cons, ← isFirst, byAccess restriction member]
    rfl
  · rw [onlyHidden] at member ⊢
    rw [mem_singleton.mp member]
    rfl

end

theorem documented_or_analyzed {restriction? : Option Restriction}
    (noUndocumented : options.withUndocumented = false)
    (kept : isKeptUnder options traits restriction?) : traits.documented ∨ traits.analyzed := by
  cases restriction? with
  | none =>
    rw [isKeptUnder, noUndocumented, Bool.or_false, Bool.or_eq_true] at kept
    exact kept.symm
  | some restriction =>
    rw [isKeptUnder, noUndocumented, Bool.or_false, Bool.and_eq_true] at kept
    exact .inl kept.2

theorem isKept_eq (options : EntryOptions) (traits : MemberTraits) (wantAll : Bool) :
    traits.isKept options wantAll =
      (if wantAll then traits.restriction? else .ok none).map (isKeptUnder options traits) := by
  cases wantAll with
  | false => rfl
  | true =>
    rw [isKept, if_pos rfl]
    rcases traits.restriction? with fault | _ | restriction <;> rfl

end MemberTraits

/-- What comes of two runs from the same state: the same fault, or results that are related.  They
leave the same state. -/
inductive Together {α σ : Type} (related : α → α → Prop) :
    Except Fault α × σ → Except Fault α × σ → Prop where
  | error {fault : Fault} {after : σ} : Together related (.error fault, after) (.error fault, after)
  | ok {value other : α} {after : σ} :
      related value other → Together related (.ok value, after) (.ok other, after)

namespace Together

variable {α β σ : Type} {related : α → α → Prop} {result : β → β → Prop}
  {first second : ExceptT Fault (StateM σ) α} {next further : α → ExceptT Fault (StateM σ) β}
  {before : σ}

theorem refl (run : Except Fault α × σ) : Together (· = ·) run run := by
  rcases run with ⟨fault | value, after⟩
  · exact .error
  · exact .ok rfl

theorem bind (runs : Together related (first before) (second before))
    (later : ∀ value other after, related value other →
      Together result (next value after) (further other after)) :
    Together result ((first >>= next) before) ((second >>= further) before) := by
  rw [Loads.bind_eq, Loads.bind_eq]
  generalize first before = run, second before = other at runs
  cases runs with
  | error => exact .error
  | ok holds => exact later _ _ _ holds

theorem mapM {α : Type} {next further : α → ExceptT Fault (StateM σ) β} {items : List α}
    (each : ∀ item before, Together result (next item before) (further item before)) :
    Together (Forall₂ result) (items.mapM next before) (items.mapM further before) := by
  induction items generalizing before with
  | nil => exact .ok .nil
  | cons item items ih =>
    rw [mapM_cons, mapM_cons]
    refine (each item before).bind ?_
    intro value other middle holds
    refine ih.bind ?_
    intro values others after hold
    exact .ok (.cons holds hold)

end Together

/-- A choice of names that takes in all that another one takes in. -/
def NameChoice.Within : NameChoice → NameChoice → Prop
  | _, .all => True
  | .all, .names _ => False
  | .names list, .names others => list ⊆ others

/-- Options that ask for the same members, or for more. -/
structure EntryOptions.Within (options wider : EntryOptions) : Prop where
  undocumented : options.withUndocumented → wider.withUndocumented
  privateMembers : options.privateMembers.Within wider.privateMembers
  protectedMembers : options.protectedMembers.Within wider.protectedMembers
  hiddenMembers : options.hiddenMembers.Within wider.hiddenMembers
  friendMembers : options.friendMembers.Within wider.friendMembers

section

variable {traits : MemberTraits} {options wider : EntryOptions}

namespace NameChoice.Within

variable {choice other : NameChoice} (within : choice.Within other)
include within

theorem admits {name : Text} (admits : choice.admits name) : other.admits name := by
  rcases other with _ | others
  · rfl
  rcases choice with _ | list
  · exact within.elim
  · exact contains_iff_mem.mpr (within (contains_iff_mem.mp admits))

theorem admitsFriends (admits : traits.admitsFriends choice) : traits.admitsFriends other := by
  rcases other with _ | others
  · rfl
  rcases choice with _ | list
  · exact within.elim
  · obtain ⟨friend, isFriend, listed⟩ := any_eq_true.mp admits
    exact any_eq_true.mpr
      ⟨friend, isFriend, contains_iff_mem.mpr (within (contains_iff_mem.mp listed))⟩

end NameChoice.Within

namespace MemberTraits

variable (within : options.Within wider)
include within

private theorem isAdmitted_of_within {restriction : Restriction}
    (admitted : isAdmitted options traits restriction) : isAdmitted wider traits restriction := by
  cases restriction with
  | privateMember => exact within.privateMembers.admits admitted
  | protectedMember => exact within.protectedMembers.admits admitted
  | hiddenMember => exact within.hiddenMembers.admits admitted
  | friendMember => exact within.friendMembers.admitsFriends admitted

theorem isKeptUnder_of_within (restriction? : Option Restriction)
    (kept : isKeptUnder options traits restriction?) : isKeptUnder wider traits restriction? := by
  have told : traits.documented || options.withUndocumented →
      traits.documented || wider.withUndocumented := by
    rw [Bool.or_eq_true, Bool.or_eq_true]
    exact Or.imp_right within.undocumented
  cases restriction? with
  | none =>
    rw [isKeptUnder, Bool.or_eq_true] at kept ⊢
    exact kept.imp_right told
  | some restriction =>
    rw [isKeptUnder, Bool.and_eq_true] at kept ⊢
    exact ⟨isAdmitted_of_within within kept.1, told kept.2⟩

end MemberTraits

end

namespace Page

open MemberTraits

variable {settings : PageSettings} {options wider : EntryOptions} {wantAll analyzed : Bool}
  {name : Text} {value : Value} {finding : Finding} {analysis : Option Text}
  {members : List (Text × Value)} {before after : PageState}

/-- What becomes of a member whose traits are known. -/
def decision (settings : PageSettings) (options : EntryOptions) (wantAll : Bool)
    (traits : MemberTraits) (value : Value) : Except Fault (Option PageMember) :=
  (traits.isKept options wantAll).map fun kept =>
    if (settings.skipped.get? traits.name).getD !kept then none else some ⟨traits.name, value⟩

/-- The attributes that the decision depends on. -/
def decidingAttributes (wantAll : Bool) (value : Value) : Writes Attributes :=
  if wantAll then loads (attributesOf value) else pure {}

theorem chooseMember_eq (settings : PageSettings) (options : EntryOptions) (wantAll analyzed : Bool)
    (name : Text) (value : Value) (before : PageState) :
    chooseMember settings options wantAll analyzed name value before =
      match decidingAttributes wantAll value before with
      | (.ok attributes, after) =>
        let documented := isDocumented after.catalog value
        (decision settings options wantAll { name, documented, attributes, analyzed } value, after)
      | (.error fault, after) => (.error fault, after) := by
  have decided : ∀ traits (state : PageState), (do
      let kept ← traits.isKept options wantAll
      let skipped := (settings.skipped.get? traits.name).getD !kept
      return if skipped then none else some ⟨traits.name, value⟩ : Writes _) state =
        (decision settings options wantAll traits value, state) := by
    intro traits state
    rw [decision]
    cases traits.isKept options wantAll <;> rfl
  rw [chooseMember, decidingAttributes]
  cases wantAll with
  | false => exact decided ⟨name, _, {}, analyzed⟩ before
  | true =>
    rcases given : loads (attributesOf value) before with ⟨fault | attributes, after⟩
    · simp only [if_true, given]
      exact Loads.bind_of_error given
    · simp only [if_true, given]
      exact (Loads.bind_of_ok given).trans (decided ⟨name, _, attributes, analyzed⟩ after)

/-- A decision that no fault prevents is made under a restriction, or under none. -/
theorem decision_of_ok {traits : MemberTraits} {chosen : Option PageMember}
    (noSkips : settings.skipped = {})
    (decided : decision settings options wantAll traits value = .ok chosen) :
    ∃ restriction?, (if wantAll then traits.restriction? else .ok none) = .ok restriction? ∧
      chosen = if isKeptUnder options traits restriction? then some ⟨traits.name, value⟩
        else none := by
  rw [decision, isKept_eq, noSkips] at decided
  rcases found : if wantAll then traits.restriction? else .ok none with fault | restriction?
  · rw [found] at decided
    cases decided
  · rw [found] at decided
    cases decided
    refine ⟨restriction?, rfl, ?_⟩
    cases isKeptUnder options traits restriction? <;> rfl

def pumpMethod (name : Text) (attributes : Attributes) : MethodDef where
  name := name
  signature := { name := some name, module := "geo", tokens := [], docstring := "It pumps." }
  attributes := attributes

/-- A class with a protected method, and with one that is also hidden. -/
def pumpClass : ClassDef where
  name := "Pump"
  module := "geo"
  tokens := []
  methods := ⟨[
    ("prime", pumpMethod "prime" ⟨[("Access", .word "protected"), ("Hidden", .flag true)]⟩),
    ("stop", pumpMethod "stop" ⟨[("Access", .word "protected")]⟩)]⟩

def pumpState : PageState where
  catalog := { tree := {}, root := "src", definitions := [.class pumpClass] }

def pumpFinding : Finding where
  name := { module := "geo", path := ["Pump"], fullName := "geo.Pump" }
  value := .entity (.definition 0)

def pumpMembers : List (Text × Value) :=
  [("prime", .entity (.method 0 "prime")), ("stop", .entity (.method 0 "stop"))]

/-! ### Wider options -/

section

variable (within : options.Within wider)
include within

private theorem decision_within (traits : MemberTraits) (value : Value) :
    Together (fun chosen more => chosen.toList <+ more.toList)
      (decision settings options wantAll traits value, before)
      (decision settings wider wantAll traits value, before) := by
  rw [decision, decision, isKept_eq, isKept_eq]
  rcases if wantAll then traits.restriction? else .ok none with fault | restriction?
  · exact .error
  · apply Together.ok
    have kept := @isKeptUnder_of_within traits _ _ within restriction?
    dsimp only
    cases settings.skipped.get? traits.name with
    | some skipped => exact Sublist.refl _
    | none =>
      cases isKept : isKeptUnder options traits restriction? with
      | false => exact nil_sublist _
      | true =>
        rw [kept isKept]

theorem chooseMember_within (analyzed : Bool) (name : Text) (value : Value) (before : PageState) :
    Together (fun chosen more => chosen.toList <+ more.toList)
      (chooseMember settings options wantAll analyzed name value before)
      (chooseMember settings wider wantAll analyzed name value before) := by
  rw [chooseMember_eq, chooseMember_eq]
  rcases decidingAttributes wantAll value before with ⟨fault | attributes, after⟩
  · exact .error
  · exact decision_within within _ _

end

private theorem filterMap_id_sublist {chosen more : List (Option PageMember)}
    (each : Forall₂ (fun one other => one.toList <+ other.toList) chosen more) :
    chosen.filterMap id <+ more.filterMap id := by
  rw [filterMap_eq_flatMap_toList, filterMap_eq_flatMap_toList]
  induction each with
  | nil => exact .slnil
  | cons first _ ih => exact first.append ih

/-- Options that ask for more members keep them all in their order, and they fail where the
others fail.  So it is whatever is said about skipping members by their names. -/
theorem wider_options_keep_members (settings : PageSettings) (options wider : EntryOptions)
    (finding : Finding) (analysis : Option Text) (wantAll : Bool) (members : List (Text × Value))
    (state : PageState) (within : options.Within wider) :
    Together Sublist (chooseMembers settings options finding analysis wantAll members state)
      (chooseMembers settings wider finding analysis wantAll members state) := by
  refine (Together.refl (analyzedDocs analysis state)).bind ?_
  rintro docs _ middle rfl
  refine (Together.mapM ?_).bind fun chosen more after each => .ok (filterMap_id_sublist each)
  rintro ⟨name, value⟩ before
  exact chooseMember_within within _ name value before

theorem wider_options_keep_members_pump :
    let options : EntryOptions := { members := .all, protectedMembers := .names ["stop"] }
    let wider : EntryOptions := { members := .all, protectedMembers := .all }
    let chosen := chooseMembers { sourceFolder := "src" } options pumpFinding none true pumpMembers
    let more := chooseMembers { sourceFolder := "src" } wider pumpFinding none true pumpMembers
    chosen pumpState = (.ok [⟨"stop", .entity (.method 0 "stop")⟩], pumpState) ∧
      more pumpState = (.ok (pumpMembers.map fun item => ⟨item.1, item.2⟩), pumpState) ∧
      Together Sublist (chosen pumpState) (more pumpState) :=
  ⟨rfl, rfl, wider_options_keep_members _ _ _ _ _ _ _ _
    ⟨id, nil_subset _, trivial, nil_subset _, nil_subset _⟩⟩

/-! ### Members of a class -/

/-- A property or a method. -/
def IsClassMember : Value → Prop
  | .entity (.property _ _) | .entity (.method _ _) => True
  | _ => False

/-- The attributes of the block in which a property or a method stands. -/
def blockAttributes (catalog : Catalog) : Value → Attributes
  | .entity (.property owner name) =>
    ((catalog.property? owner name).map PropertyDef.attributes).getD {}
  | .entity (.method owner name) => ((catalog.method? owner name).map MethodDef.attributes).getD {}
  | _ => {}

/-- The traits of a member under its name, with the docstrings of the analysis. -/
def traitsOf (catalog : Catalog) (docs : Table (Text × Text) Value) (finding : Finding)
    (item : Text × Value) : MemberTraits where
  name := item.1
  documented := isDocumented catalog item.2
  attributes := blockAttributes catalog item.2
  analyzed := docs.contains (EntryName.dotted finding.name.path, item.1)

private theorem decidingAttributes_member (ofClass : IsClassMember value) (before : PageState) :
    decidingAttributes true value before =
      (.ok (blockAttributes before.catalog value), before) := by
  match value, ofClass with
  | .entity (.property owner name), _ => rfl
  | .entity (.method owner name), _ => rfl

variable {docs : Table (Text × Text) Value} {results : List (Option PageMember)}

/-- The members of a class are chosen without a change, each by its first restriction. -/
private theorem mapM_chooseMember_of_ok (noSkips : settings.skipped = {})
    (ofClass : ∀ item ∈ members, IsClassMember item.2)
    (run : (members.mapM fun (name, value) => chooseMember settings options true
      (docs.contains (EntryName.dotted finding.name.path, name)) name value : Writes _) before =
        (.ok results, after)) :
    after = before ∧ results.filterMap id =
      (members.filter fun item => (traitsOf before.catalog docs finding item).isShown options).map
        fun item => ⟨item.1, item.2⟩ := by
  induction members generalizing results with
  | nil =>
    cases run
    exact ⟨rfl, rfl⟩
  | cons item members ih =>
    obtain ⟨isMember, others⟩ := forall_mem_cons.mp ofClass
    rw [mapM_cons] at run
    obtain ⟨chosen, middle, chosenRun, rest⟩ := Loads.ok_of_bind run
    obtain ⟨more, last, moreRun, isLast⟩ := Loads.ok_of_bind rest
    cases isLast
    dsimp only at chosenRun
    rw [chooseMember_eq, decidingAttributes_member isMember] at chosenRun
    obtain ⟨decided, rfl⟩ := Prod.mk.inj chosenRun
    obtain ⟨rfl, same⟩ := ih others moreRun
    refine ⟨rfl, ?_⟩
    have isDecided : decision settings options true (traitsOf after.catalog docs finding item)
      item.2 = .ok chosen := decided
    obtain ⟨restriction?, found, isChosen⟩ := decision_of_ok noSkips isDecided
    rw [if_pos rfl] at found
    rw [filterMap_cons, filter_cons, isShown, head?_restrictions found, isChosen, same]
    cases isKeptUnder options (traitsOf after.catalog docs finding item) restriction? <;> rfl

/-- When all members of a class are asked for and none is skipped, those are described that the
first of their restrictions lets pass, and no other restriction is looked at.  So the options
admit all restrictions of a described member unless it is hidden and also restricted by its
access. -/
theorem first_restriction_decides (settings : PageSettings) (options : EntryOptions)
    (finding : Finding) (analysis : Option Text) (members : List (Text × Value))
    (chosen : List PageMember) (before after : PageState)
    (ofClass : ∀ item ∈ members, IsClassMember item.2) (noSkips : settings.skipped = {})
    (run : chooseMembers settings options finding analysis true members before =
      (.ok chosen, after)) :
    ∃ docs, analyzedDocs analysis before = (.ok docs, after) ∧
      let traits := traitsOf after.catalog docs finding
      chosen = (members.filter fun item => (traits item).isShown options).map
        (fun item => ⟨item.1, item.2⟩) ∧
      ∀ item ∈ members, (traits item).isShown options →
        (∀ first ∈ (traits item).restrictions.head?, isAdmitted options (traits item) first) ∧
        ((traits item).isHidden = false ∨ (traits item).restrictions = [.hiddenMember] →
          ∀ restriction ∈ (traits item).restrictions,
            isAdmitted options (traits item) restriction) := by
  obtain ⟨docs, middle, docsRun, run⟩ := Loads.ok_of_bind run
  obtain ⟨results, _, resultsRun, isLast⟩ := Loads.ok_of_bind run
  cases isLast
  obtain ⟨rfl, isChosen⟩ := mapM_chooseMember_of_ok noSkips ofClass resultsRun
  refine ⟨docs, docsRun, isChosen, ?_⟩
  intro item _ shown
  exact ⟨isAdmitted_head shown, isAdmitted_of_single shown⟩

theorem first_restriction_decides_pump :
    let options : EntryOptions := { members := .all, protectedMembers := .all }
    let traits := traitsOf pumpState.catalog {} pumpFinding ("stop", .entity (.method 0 "stop"))
    chooseMembers { sourceFolder := "src" } options pumpFinding none true pumpMembers pumpState =
        (.ok (pumpMembers.map fun item => ⟨item.1, item.2⟩), pumpState) ∧
      traits.restrictions = [.protectedMember] ∧
      ∀ restriction ∈ traits.restrictions, isAdmitted options traits restriction := by
  have ofClass : ∀ item ∈ pumpMembers, IsClassMember item.2 :=
    forall_mem_cons.mpr ⟨trivial, forall_mem_singleton.mpr trivial⟩
  obtain ⟨docs, docsRun, -, each⟩ := first_restriction_decides { sourceFolder := "src" }
    { members := .all, protectedMembers := .all } pumpFinding none pumpMembers
    (pumpMembers.map fun item => ⟨item.1, item.2⟩) pumpState pumpState ofClass rfl rfl
  cases docsRun
  exact ⟨rfl, rfl, (each _ (mem_cons_of_mem _ mem_cons_self) rfl).2 (.inl rfl)⟩

/-- A hidden method is described although the options do not admit hidden members. -/
theorem hidden_member_described :
    let options : EntryOptions := { members := .all, protectedMembers := .all }
    let traits := traitsOf pumpState.catalog {} pumpFinding ("prime", .entity (.method 0 "prime"))
    chooseMembers { sourceFolder := "src" } options pumpFinding none true
        [("prime", .entity (.method 0 "prime"))] pumpState =
      (.ok [⟨"prime", .entity (.method 0 "prime")⟩], pumpState) ∧
    .hiddenMember ∈ traits.restrictions ∧ isAdmitted options traits .hiddenMember = false :=
  ⟨rfl, by decide, rfl⟩

end Page

end MatlabDocs
