import Mathlib
import MatlabDocs.Proofs.Reference.IndexedModules
import MatlabDocs.Proofs.Reference.PackageSigns

/-!
# Groups of the module index

The modules of a package stand under a head for the package.  A module opens its group by the
name in front of it alone: it makes a head of the package itself, and adds one unless that name
starts with the package.  So it stands without a head just if the name in front starts with the
package and goes on with something else than a dot.
-/

namespace MatlabDocs

open List

def ModuleIndexEntry.fullName (entry : ModuleIndexEntry) : Text :=
  (Text.afterStart? "module-" entry.anchor).getD entry.name

namespace ModuleIndex

/-- The last entries are a head for the package and submodules of it. -/
def UnderHead (entries : List ModuleIndexEntry) (package : Text) : Prop :=
  ∃ before head members, entries = before ++ head :: members ∧ head.level = .head ∧
    head.fullName = package ∧
    ∀ member ∈ members, member.level = .member ∧ topPackage member.fullName = package

/-- Every submodule stands under a head for its package. -/
def Grouped (entries : List ModuleIndexEntry) : Prop :=
  ∀ front entry back, entries = front ++ entry :: back → entry.level = .member →
    UnderHead front (topPackage entry.fullName)

section

variable {front : List ModuleIndexEntry} {last : ModuleIndexEntry} {package : Text}

theorem underHead_concat :
    UnderHead (front ++ [last]) package ↔
      last.level = .head ∧ last.fullName = package ∨
      last.level = .member ∧ topPackage last.fullName = package ∧ UnderHead front package := by
  constructor
  · rintro ⟨before, head, members, split, isHead, ofPackage, inPackage⟩
    rcases eq_nil_or_concat members with rfl | ⟨members, member, rfl⟩
    · obtain ⟨rfl, rfl⟩ := append_singleton_inj.mp split
      exact .inl ⟨isHead, ofPackage⟩
    · rw [concat_eq_append, ← cons_append, ← append_assoc] at split
      obtain ⟨rfl, rfl⟩ := append_singleton_inj.mp split
      obtain ⟨isMember, sameGroup⟩ := inPackage last (by simp)
      exact .inr ⟨isMember, sameGroup, before, head, members, rfl, isHead, ofPackage,
        fun member inMembers => inPackage member (by simp [inMembers])⟩
  · rintro (⟨isHead, ofPackage⟩ | ⟨isMember, sameGroup, before, head, members, rfl, isHead,
      ofPackage, inPackage⟩)
    · exact ⟨front, last, [], rfl, isHead, ofPackage, nofun⟩
    · refine ⟨before, head, members ++ [last], by simp, isHead, ofPackage, ?_⟩
      exact forall_mem_append.mpr ⟨inPackage, forall_mem_singleton.mpr ⟨isMember, sameGroup⟩⟩

theorem grouped_nil : Grouped [] :=
  fun _ _ _ split => absurd split (by simp)

theorem grouped_concat :
    Grouped (front ++ [last]) ↔
      Grouped front ∧ (last.level = .member → UnderHead front (topPackage last.fullName)) := by
  constructor
  · intro grouped
    refine ⟨?_, grouped front last [] rfl⟩
    rintro before entry back rfl isMember
    exact grouped before entry (back ++ [last]) (by simp) isMember
  · rintro ⟨grouped, ends⟩ before entry back split isMember
    rcases eq_nil_or_concat back with rfl | ⟨back, other, rfl⟩
    · obtain ⟨rfl, rfl⟩ := append_singleton_inj.mp split
      exact ends isMember
    · rw [concat_eq_append, ← cons_append, ← append_assoc] at split
      obtain ⟨rfl, rfl⟩ := append_singleton_inj.mp split
      exact grouped before entry back rfl isMember

end

/-! ## Names -/

variable (name : Text)

theorem head?_withoutPackageSigns :
    (withoutPackageSigns name).head? = (name.dropWhile (· == '+')).head? := by
  have plain : ∀ name : Text, '.' ∉ name →
      withoutPackageSigns name = name.dropWhile (· == '+') := by
    intro name noDot
    rw [withoutPackageSigns, Text.splitOn_of_not_mem noDot, map_singleton, Text.joinWith_singleton]
  by_cases dotted : '.' ∈ name
  · obtain ⟨front, rest, rfl, noDot⟩ := eq_append_cons_of_mem dotted
    rw [withoutPackageSigns_dotted, plain front noDot, dropWhile_append_stop (by decide)]
    cases front.dropWhile (· == '+') <;> rfl
  · rw [plain name dotted]

theorem topPackage_eq :
    '.' ∉ topPackage name ∧
      (name = topPackage name ∨ ∃ rest, name = topPackage name ++ '.' :: rest) := by
  by_cases dotted : '.' ∈ name
  · obtain ⟨front, rest, rfl, noDot⟩ := eq_append_cons_of_mem dotted
    have isFront : topPackage (front ++ '.' :: rest) = front := by
      rw [topPackage, Text.splitOn_append_cons noDot, headD_cons]
    rw [isFront]
    exact ⟨noDot, .inr ⟨rest, rfl⟩⟩
  · have isWhole : topPackage name = name := by
      rw [topPackage, Text.splitOn_of_not_mem dotted, headD_cons]
    rw [isWhole]
    exact ⟨dotted, .inl rfl⟩

theorem topPackage_topPackage : topPackage (topPackage name) = topPackage name := by
  rw [topPackage, Text.splitOn_of_not_mem (topPackage_eq name).1, headD_cons]

theorem topPackage_isStart : topPackage name <+: name := by
  rcases (topPackage_eq name).2 with whole | ⟨rest, split⟩
  · exact whole ▸ prefix_rfl
  · exact ⟨'.' :: rest, split.symm⟩

section

variable {settings : IndexSettings} (noPrefixes : settings.commonPrefixes = [])
include noPrefixes

theorem cutLength_eq_zero (name : Text) : cutLength settings.commonPrefixes name = 0 := by
  rw [noPrefixes, cutLength_of_greatest (Nat.zero_le _) (absurd rfl) (by simp), ite_self]

theorem bareName_eq (name : Text) : bareName settings name = name := by
  rw [bareName, cutLength_eq_zero noPrefixes, drop_zero]

section

variable {start name : Text} (starts : start <+: name) (isShown : shownName settings start ≠ [])
include starts isShown

theorem head?_shownName : (shownName settings name).head? = (shownName settings start).head? := by
  obtain ⟨rest, rfl⟩ := starts
  unfold shownName at isShown ⊢
  simp only [bareName_eq noPrefixes] at isShown ⊢
  split
  · rename_i keeps
    rw [if_pos keeps] at isShown
    exact head?_append_of_ne_nil _ isShown
  · rename_i hides
    rw [if_neg hides] at isShown
    have left : start.dropWhile (· == '+') ≠ [] := by
      rwa [Ne, ← head?_eq_none_iff, ← head?_withoutPackageSigns, head?_eq_none_iff]
    rw [head?_withoutPackageSigns, head?_withoutPackageSigns, dropWhile_append,
      if_neg (by simpa using left)]
    exact head?_append_of_ne_nil _ left

theorem shownName_ne_nil : shownName settings name ≠ [] := by
  rwa [Ne, ← head?_eq_none_iff, head?_shownName noPrefixes starts isShown, head?_eq_none_iff]

theorem letterOf_of_start : letterOf settings name = letterOf settings start := by
  rw [letterOf, letterOf, take_one, take_one, head?_shownName noPrefixes starts isShown]

end

end

/-! ## Steps -/

/-- The name opens its group, or is in that of the name in front of it. -/
def MayFollow (previous name : Text) : Prop :=
  isSubmodule name → topPackage name <+: previous → topPackage previous = topPackage name

instance : DecidableRel MayFollow :=
  fun _ _ => inferInstanceAs (Decidable (_ → _ → _))

variable (settings : IndexSettings) (draft : Draft)

/-- The last module is the last under its letter, and not yet a head. -/
def Draft.Tracked : Prop :=
  draft.previous = [] ∨ ∃ front last, draft.under (letterOf settings draft.previous) =
    front ++ [last] ∧ last.fullName = draft.previous ∧
      last.level = if isSubmodule draft.previous then .member else .single

theorem fullName_entryOf (name : Text) (module : ModuleEntry) (level : IndexLevel) :
    { entryOf settings name module with level := level }.fullName = name := by
  show (Text.afterStart? "module-" ("module-".toList ++ name)).getD _ = name
  rw [Text.afterStart?_append]
  rfl

theorem Draft.under_enter (name letter : Text) (module : ModuleEntry) :
    (draft.enter settings name module).under letter =
      if letter = letterOf settings name then draft.ready settings name ++
        [{ entryOf settings name module with
            level := if isSubmodule (bareName settings name) then .member else .single }]
      else draft.under letter := by
  rw [under, enter, Table.get?_insert]
  split <;> rfl

section

variable {settings : IndexSettings} (noPrefixes : settings.commonPrefixes = []) {draft : Draft}
  (tracked : draft.Tracked settings) {name : Text}
  (isShown : shownName settings (topPackage name) ≠ [])
include noPrefixes tracked isShown

theorem exists_under_eq (starts : topPackage name <+: draft.previous) :
    ∃ front last, draft.under (letterOf settings name) = front ++ [last] ∧
      last.fullName = draft.previous ∧
      last.level = if isSubmodule draft.previous then .member else .single := by
  have notEmpty : topPackage name ≠ [] := by
    rintro empty
    rw [empty, shownName, bareName_eq noPrefixes] at isShown
    exact isShown (ite_self _)
  have sameLetter : letterOf settings draft.previous = letterOf settings name := by
    rw [letterOf_of_start noPrefixes starts isShown,
      letterOf_of_start noPrefixes (topPackage_isStart name) isShown]
  rcases tracked with empty | last
  · exact absurd (prefix_nil.mp (empty ▸ starts)) notEmpty
  · rwa [sameLetter] at last

omit tracked isShown in
theorem ready_eq :
    draft.ready settings name =
      let entries := draft.under (letterOf settings name)
      if isSubmodule name then
        if draft.previous = topPackage name then markLastHead entries
        else if draft.previous.startsWith (topPackage name) then entries
        else entries ++ [{ name := topPackage name, level := .head }]
      else entries := by
  rw [Draft.ready, bareName_eq noPrefixes, cutLength_eq_zero noPrefixes]
  rfl

theorem grouped_ready :
    Grouped (draft.ready settings name) ↔ Grouped (draft.under (letterOf settings name)) := by
  rw [ready_eq noPrefixes]
  dsimp only
  split
  · split
    · rename_i isPackage
      obtain ⟨front, last, split, -, level⟩ :=
        exists_under_eq noPrefixes tracked isShown (isPackage ▸ prefix_rfl)
      have isTop : isSubmodule draft.previous = false := by
        simp [isSubmodule, isPackage, topPackage_topPackage]
      rw [isTop] at level
      simp [split, markLastHead_concat, grouped_concat, level]
    · split
      · rfl
      · simp [grouped_concat]
  · rfl

/-- A submodule stands under a head for its package unless the name in front of it starts with the
package and is not in it. -/
private theorem underHead_ready (grouped : Grouped (draft.under (letterOf settings name)))
    (isMember : isSubmodule name) :
    UnderHead (draft.ready settings name) (topPackage name) ↔
      (topPackage name <+: draft.previous → topPackage draft.previous = topPackage name) := by
  rw [ready_eq noPrefixes, if_pos isMember]
  split
  · rename_i isPackage
    obtain ⟨front, last, split, named, -⟩ :=
      exists_under_eq noPrefixes tracked isShown (isPackage ▸ prefix_rfl)
    rw [split, markLastHead_concat, isPackage, topPackage_topPackage]
    exact iff_of_true (underHead_concat.mpr (.inl ⟨rfl, named.trans isPackage⟩)) fun _ => rfl
  · rename_i notPackage
    split
    · rename_i starts
      have starts := isPrefixOf_iff_prefix.mp starts
      obtain ⟨front, last, split, named, level⟩ :=
        exists_under_eq noPrefixes tracked isShown starts
      rw [split] at grouped
      rw [split, underHead_concat, named]
      constructor
      · rintro (⟨isHead, -⟩ | ⟨-, sameGroup, -⟩) _
        · rw [level] at isHead
          split at isHead <;> cases isHead
        · exact sameGroup
      · intro inPackage
        have sameGroup := inPackage starts
        have isSub : isSubmodule draft.previous := by
          simpa [isSubmodule, sameGroup] using Ne.symm notPackage
        rw [if_pos isSub] at level
        have under := (grouped_concat.mp grouped).2 level
        rw [named, sameGroup] at under
        exact .inr ⟨level, sameGroup, under⟩
    · rename_i apart
      exact iff_of_true (underHead_concat.mpr (.inl ⟨rfl, rfl⟩))
        fun starts => absurd (List.isPrefixOf_iff_prefix.mpr starts) apart

theorem grouped_enter (module : ModuleEntry) :
    (∀ letter, Grouped ((draft.enter settings name module).under letter)) ↔
      (∀ letter, Grouped (draft.under letter)) ∧ MayFollow draft.previous name := by
  have entered : Grouped ((draft.enter settings name module).under (letterOf settings name)) ↔
      Grouped (draft.under (letterOf settings name)) ∧ MayFollow draft.previous name := by
    rw [Draft.under_enter, if_pos rfl, grouped_concat, grouped_ready noPrefixes tracked isShown,
      fullName_entryOf, bareName_eq noPrefixes, MayFollow]
    refine and_congr_right fun grouped => ?_
    by_cases isMember : isSubmodule name
    · simp [isMember, underHead_ready noPrefixes tracked isShown grouped isMember]
    · simp [isMember]
  constructor
  · intro grouped
    refine ⟨fun letter => ?_, (entered.mp (grouped _)).2⟩
    by_cases isLetter : letter = letterOf settings name
    · exact isLetter ▸ (entered.mp (grouped _)).1
    · have others := grouped letter
      rwa [Draft.under_enter, if_neg isLetter] at others
  · rintro ⟨grouped, inPackage⟩ letter
    by_cases isLetter : letter = letterOf settings name
    · exact isLetter ▸ entered.mpr ⟨grouped _, inPackage⟩
    · rw [Draft.under_enter, if_neg isLetter]
      exact grouped letter

end

section

variable {settings : IndexSettings} (noPrefixes : settings.commonPrefixes = [])
include noPrefixes

omit noPrefixes in
theorem forall_mem_letters (modules : List (Text × ModuleEntry)) :
    (∀ letter ∈ (draftOf settings modules).letters.entries, Grouped letter.2) ↔
      ∀ letter, Grouped ((draftOf settings modules).under letter) := by
  constructor
  · intro grouped letter
    rw [Draft.under]
    cases found : (draftOf settings modules).letters.get? letter with
    | none => exact grouped_nil
    | some entries => exact grouped _ (Table.mem_of_get? found)
  · intro grouped letter member
    have underLetter := grouped letter.1
    rwa [Draft.under, Table.get?_of_mem (nodup_letters ..) member] at underLetter

private theorem Draft.tracked_enter (draft : Draft) (name : Text) (module : ModuleEntry) :
    (draft.enter settings name module).Tracked settings := by
  have previous : (draft.enter settings name module).previous = name := bareName_eq noPrefixes name
  rw [Tracked, previous, under_enter, if_pos rfl, bareName_eq noPrefixes]
  exact .inr ⟨_, _, rfl, fullName_entryOf .., rfl⟩

private theorem grouped_foldl {modules : List (Text × ModuleEntry)} {draft : Draft}
    (tracked : draft.Tracked settings)
    (named : ∀ module ∈ modules, shownName settings (topPackage module.1) ≠ []) :
    (∀ letter, Grouped ((modules.foldl
        (fun draft module => draft.enter settings module.1 module.2) draft).under letter)) ↔
      (∀ letter, Grouped (draft.under letter)) ∧
        (draft.previous :: modules.map Prod.fst).IsChain MayFollow := by
  induction modules generalizing draft with
  | nil => simp
  | cons module modules ih =>
    obtain ⟨isShown, named⟩ := forall_mem_cons.mp named
    have previous : (draft.enter settings module.1 module.2).previous = module.1 :=
      bareName_eq noPrefixes module.1
    rw [foldl_cons, ih (draft.tracked_enter noPrefixes module.1 module.2) named,
      grouped_enter noPrefixes tracked isShown, previous, map_cons, isChain_cons_cons, and_assoc]

end

/-- The submodules stand under heads for their packages just if each may follow the module in front
of it: it is in no package whose name that one starts with, unless both are in it. -/
theorem submodules_grouped_iff (settings : IndexSettings) (modules : NameTable ModuleEntry)
    (documents : List Text) (noPrefixes : settings.commonPrefixes = [])
    (named : ∀ module ∈ modules.entries, shownName settings (topPackage module.1) ≠ []) :
    ∃ index, generate settings modules documents = .ok index ∧
      ((∀ letter ∈ index.letters, Grouped letter.2) ↔
        ((chosen modules documents).map Prod.fst).IsChain MayFollow) := by
  have ofTable : ∀ module ∈ chosen modules documents, module ∈ modules.entries :=
    fun module member => mem_mergeSort.mp (mem_of_mem_filter member)
  have named := fun module member => named module (ofTable module member)
  have shown : ∀ module ∈ chosen modules documents, shownName settings module.1 ≠ [] :=
    fun module member =>
      shownName_ne_nil noPrefixes (topPackage_isStart module.1) (named module member)
  refine ⟨_, (generate_eq ..).trans (if_pos shown), ?_⟩
  have atStart : ∀ name ∈ ((chosen modules documents).map Prod.fst).head?, MayFollow [] name := by
    intro name _ _ starts
    rw [prefix_nil.mp starts]
    rfl
  simp only [mem_mergeSort]
  rw [forall_mem_letters, draftOf,
    @grouped_foldl settings noPrefixes (chosen modules documents) {} (.inl rfl) named, isChain_cons]
  exact (and_iff_right fun _ => grouped_nil).trans (and_iff_right atStart)

/-- Modules of two packages, of which one is itself a module. -/
def toolboxes : NameTable ModuleEntry :=
  ⟨[("tool.io", { document := "index" }), ("+lib.+io", { document := "index" }),
    ("tool", { document := "index" }), ("+lib.+net", { document := "index" })]⟩

theorem submodules_grouped_iff_toolboxes :
    (∀ module ∈ toolboxes.entries, shownName ⟨[], false⟩ (topPackage module.1) ≠ []) ∧
    ∃ index, generate ⟨[], false⟩ toolboxes [] = .ok index ∧
      ∀ letter ∈ index.letters, Grouped letter.2 := by
  have named :
      ∀ module ∈ toolboxes.entries, shownName ⟨[], false⟩ (topPackage module.1) ≠ [] := by
    decide
  obtain ⟨index, isMade, grouped⟩ := submodules_grouped_iff ⟨[], false⟩ toolboxes [] rfl named
  have inOrder : (chosen toolboxes []).map Prod.fst =
      ["+lib.+io".toList, "+lib.+net".toList, "tool".toList, "tool.io".toList] := by
    cbv
  refine ⟨named, index, isMade, grouped.mpr ?_⟩
  rw [inOrder]
  decide

/-- The first name starts with the package of the second and is not in it. -/
def siblings : NameTable ModuleEntry :=
  ⟨[("tool-box", { document := "index" }), ("tool.io", { document := "index" })]⟩

theorem submodule_without_head :
    ∃ index, generate {} siblings [] = .ok index ∧
      index.letters = [("t".toList,
        [⟨"tool-box", .single, "index", "module-tool-box", some [], [], some []⟩,
          ⟨"tool.io", .member, "index", "module-tool.io", some [], [], some []⟩])] ∧
      ¬∀ letter ∈ index.letters, Grouped letter.2 := by
  have inOrder : chosen siblings [] = siblings.entries := by cbv
  rw [generate_eq, inOrder]
  refine ⟨_, if_pos (by decide), mergeSort_singleton _, fun grouped => ?_⟩
  have underHead : UnderHead ([] ++ [_]) _ :=
    grouped _ (mem_mergeSort.mpr mem_cons_self) [_] _ [] rfl rfl
  rcases underHead_concat.mp underHead with ⟨isHead, -⟩ | ⟨isMember, -⟩
  · cases isHead
  · cases isMember

end ModuleIndex

end MatlabDocs
