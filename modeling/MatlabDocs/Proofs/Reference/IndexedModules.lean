import Mathlib.Data.Char
import Mathlib.Data.List.Lex
import Mathlib.Data.Nat.Find
import MatlabDocs.Proofs.Table
import MatlabDocs.Reference.Index

/-!
# What the module index lists

Every module of the chosen documents is entered once under its letter.  A step may also make the
entry in front the head of a group, or put a head without an anchor in front, so all that it does
to the earlier entries is to change a level.
-/

namespace MatlabDocs

open List

theorem Table.flatMap_insertEntry_perm {κ α β : Type} [DecidableEq κ] {key : κ}
    {values : List α} {list : κ → List α → List β} {added : List β} (entries : List (κ × List α))
    (empty : list key [] = [])
    (adds : list key values ~ list key ((entries.lookup key).getD []) ++ added) :
    (insertEntry key values entries).flatMap (fun entry => list entry.1 entry.2) ~
      entries.flatMap (fun entry => list entry.1 entry.2) ++ added := by
  induction entries with
  | nil => simpa [insertEntry, empty] using adds
  | cons entry entries ih =>
    rw [lookup_cons_eq] at adds
    rw [insertEntry, flatMap_cons]
    split
    · rename_i same
      subst same
      rw [if_pos rfl] at adds
      refine (adds.append_right _).trans ?_
      rw [append_assoc, append_assoc]
      exact perm_append_comm.append_left _
    · rename_i different
      rw [if_neg (Ne.symm different)] at adds
      rw [append_assoc]
      exact (ih adds).append_left _

namespace ModuleIndex

private theorem textLe_iff {a b : Text} : textLe a b ↔ a ≤ b := by
  simp [textLe]

theorem pairwise_mergeSort_key {α : Type} (key : α → Text) (items : List α) :
    (items.mergeSort fun a b => textLe (key a) (key b)).Pairwise fun a b => key a ≤ key b := by
  refine (pairwise_mergeSort ?_ ?_ items).imp textLe_iff.mp
  · intro a b c first second
    exact textLe_iff.mpr ((textLe_iff.mp first).trans (textLe_iff.mp second))
  · intro a b
    rw [Bool.or_eq_true, textLe_iff, textLe_iff]
    exact le_total _ _

variable (commonPrefixes : List Text) (name : Text)

/-- How many characters are cut off a name: as many as the longest of the prefixes that it starts
with has, but none if nothing would remain. -/
def cutLength : Nat :=
  let longest := Nat.findGreatest (fun length => name.take length ∈ commonPrefixes) name.length
  if longest = name.length then 0 else longest

theorem cutLength_of_greatest {commonPrefixes : List Text} {name : Text} {length : Nat}
    (inName : length ≤ name.length) (isPrefix : length ≠ 0 → name.take length ∈ commonPrefixes)
    (greatest : ∀ start ∈ commonPrefixes, start <+: name → start.length ≤ length) :
    cutLength commonPrefixes name = if length = name.length then 0 else length := by
  have longest : Nat.findGreatest (fun length => name.take length ∈ commonPrefixes) name.length =
      length := by
    refine Nat.findGreatest_eq_iff.mpr ⟨inName, isPrefix, fun other longer within member => ?_⟩
    have shorter := greatest _ member (List.take_prefix other name)
    rw [length_take, min_eq_left within] at shorter
    exact Nat.not_le_of_lt longer shorter
  rw [cutLength, longest]

theorem stripCommon_eq :
    stripCommon commonPrefixes name =
      (name.take (cutLength commonPrefixes name), name.drop (cutLength commonPrefixes name)) := by
  have sorted := @pairwise_mergeSort Text (fun a b => decide (b.length ≤ a.length))
    (fun _ _ _ first second => decide_eq_true ((of_decide_eq_true second).trans
      (of_decide_eq_true first)))
    (fun _ _ => by simpa using le_total _ _) commonPrefixes
  have members := fun start => @mem_mergeSort Text (fun a b => decide (b.length ≤ a.length)) start
    commonPrefixes
  rw [stripCommon]
  split
  · rename_i start found
    obtain ⟨starts, before, after, split, others⟩ := find?_eq_some_iff_append.mp found
    obtain ⟨rest, rfl⟩ := isPrefixOf_iff_prefix.mp starts
    rw [split] at sorted members
    rw [@cutLength_of_greatest commonPrefixes (start ++ rest) start.length (by simp)
      (fun _ => (members _).mp (by simp)) ?_]
    · split
      · rename_i whole
        have nothing : rest = [] := by simpa using whole
        simp [nothing]
      · simp
    · intro other member isStart
      rcases mem_append.mp ((members other).mpr member) with earlier | later
      · have fails := others other earlier
        rw [Text.startsWith, isPrefixOf_iff_prefix.mpr isStart] at fails
        cases fails
      · rcases mem_cons.mp later with rfl | behind
        · exact le_rfl
        · exact of_decide_eq_true
            ((pairwise_cons.mp (pairwise_append.mp sorted).2.1).1 other behind)
  · rename_i none
    rw [@cutLength_of_greatest commonPrefixes name 0 (Nat.zero_le _) (absurd rfl) ?_]
    · simp
    · intro start member isStart
      have fails := find?_eq_none.mp none start ((members start).mpr member)
      exact absurd (List.isPrefixOf_iff_prefix.mpr isStart) fails

def Draft.under (draft : Draft) (letter : Text) : List ModuleIndexEntry :=
  (draft.letters.get? letter).getD []

section

variable (settings : IndexSettings) (draft : Draft) (name : Text) (module : ModuleEntry)

def bareName : Text :=
  name.drop (cutLength settings.commonPrefixes name)

def shownName : Text :=
  if settings.keepPackageSigns then bareName settings name
  else withoutPackageSigns (bareName settings name)

def letterOf : Text :=
  lowercase ((shownName settings name).take 1)

def entryOf : ModuleIndexEntry where
  name := name.take (cutLength settings.commonPrefixes name) ++ shownName settings name
  level := .single
  document := module.document
  anchor := moduleAnchor name
  platform := module.platform
  qualifier := if module.deprecated then "Deprecated" else []
  synopsis := module.synopsis

def topPackage (name : Text) : Text :=
  (name.splitOn '.').headD []

def isSubmodule (name : Text) : Bool :=
  topPackage name != name

def Draft.ready : List ModuleIndexEntry :=
  let entries := draft.under (letterOf settings name)
  let package := topPackage (bareName settings name)
  if isSubmodule (bareName settings name) then
    if draft.previous = package then markLastHead entries
    else if draft.previous.startsWith package then entries
    else entries ++
      [{ name := name.take (cutLength settings.commonPrefixes name) ++ package, level := .head }]
  else entries

def Draft.enter : Draft :=
  let isMember := isSubmodule (bareName settings name)
  { letters := draft.letters.insert (letterOf settings name) (draft.ready settings name ++
      [{ entryOf settings name module with level := if isMember then .member else .single }])
    previous := bareName settings name
    topLevel := if isMember then draft.topLevel else draft.topLevel + 1 }

theorem addModule_eq :
    addModule settings draft name module =
      if shownName settings name = [] then .error .emptyModuleName
      else .ok (draft.enter settings name module) := by
  have whole :
      name.take (cutLength settings.commonPrefixes name) ++ bareName settings name = name :=
    take_append_drop _ name
  rw [addModule, stripCommon_eq]
  dsimp only
  rw [← bareName, ← shownName, whole]
  cases shown : shownName settings name with
  | nil => rfl
  | cons first rest =>
    rw [if_neg (cons_ne_nil _ _)]
    simp only [Draft.enter, Draft.ready, letterOf, entryOf, shown]
    rfl

end

def chosen (modules : NameTable ModuleEntry) (documents : List Text) : List (Text × ModuleEntry) :=
  (modules.entries.mergeSort fun a b => textLe (lowercase a.1) (lowercase b.1)).filter
    fun entry => documents.isEmpty || documents.contains entry.2.document

def draftOf (settings : IndexSettings) (modules : List (Text × ModuleEntry)) : Draft :=
  modules.foldl (fun draft module => draft.enter settings module.1 module.2) {}

variable (settings : IndexSettings) (modules : List (Text × ModuleEntry)) (draft : Draft)

private theorem foldlM_addModule :
    modules.foldlM (fun draft module => addModule settings draft module.1 module.2) draft =
      if ∀ module ∈ modules, shownName settings module.1 ≠ [] then
        .ok (modules.foldl (fun draft module => draft.enter settings module.1 module.2) draft)
      else .error .emptyModuleName := by
  induction modules generalizing draft with
  | nil => rfl
  | cons module modules ih =>
    rw [foldlM_cons, addModule_eq]
    by_cases isEmpty : shownName settings module.1 = []
    · rw [if_pos isEmpty, if_neg fun all => all module mem_cons_self isEmpty]
      rfl
    · rw [if_neg isEmpty]
      refine (ih _).trans ?_
      simp only [forall_mem_cons, ne_eq, isEmpty, not_false_eq_true, true_and, foldl_cons]

theorem generate_eq (modules : NameTable ModuleEntry) (documents : List Text) :
    generate settings modules documents =
      let draft := draftOf settings (chosen modules documents)
      if ∀ module ∈ chosen modules documents, shownName settings module.1 ≠ [] then
        .ok
          { letters := draft.letters.entries.mergeSort fun a b => textLe a.1 b.1
            collapse := modules.entries.length < draft.topLevel + draft.topLevel }
      else .error .emptyModuleName := by
  have run := foldlM_addModule settings (chosen modules documents) {}
  rw [generate]
  dsimp only
  rw [← chosen]
  refine (congrArg (· >>= _) run).trans ?_
  split <;> rfl

theorem markLastHead_concat (front : List ModuleIndexEntry) (last : ModuleIndexEntry) :
    markLastHead (front ++ [last]) = front ++ [{ last with level := .head }] := by
  simp [markLastHead]

variable (letter : Text) (entries : List ModuleIndexEntry)

def listedUnder : List (Text × ModuleIndexEntry) :=
  (entries.filter (·.anchor ≠ [])).map fun entry => (letter, { entry with level := .single })

theorem listedUnder_append (front back : List ModuleIndexEntry) :
    listedUnder letter (front ++ back) = listedUnder letter front ++ listedUnder letter back := by
  simp [listedUnder]

private theorem listedUnder_markLastHead :
    listedUnder letter (markLastHead entries) = listedUnder letter entries := by
  rcases eq_nil_or_concat entries with rfl | ⟨front, last, rfl⟩
  · rfl
  · rw [concat_eq_append, markLastHead_concat, listedUnder_append, listedUnder_append]
    congr 1
    by_cases anchored : last.anchor = [] <;> simp [listedUnder, anchored]

/-- Entries are made heads and heads are added, but no module is. -/
theorem listedUnder_ready (name letter : Text) :
    listedUnder letter (draft.ready settings name) =
      listedUnder letter (draft.under (letterOf settings name)) := by
  rw [Draft.ready]
  split
  · split
    · exact listedUnder_markLastHead ..
    · split
      · rfl
      · rw [listedUnder_append]
        exact append_nil _
  · rfl

def listed (letters : List (Text × List ModuleIndexEntry)) : List (Text × ModuleIndexEntry) :=
  letters.flatMap fun letter => listedUnder letter.1 letter.2

private theorem listed_enter (name : Text) (module : ModuleEntry) :
    listed (draft.enter settings name module).letters.entries ~
      listed draft.letters.entries ++ [(letterOf settings name, entryOf settings name module)] := by
  refine Table.flatMap_insertEntry_perm _ rfl ?_
  rw [listedUnder_append, listedUnder_ready]
  exact .refl _

theorem listed_foldl :
    listed (modules.foldl (fun draft module => draft.enter settings module.1 module.2)
        draft).letters.entries ~
      listed draft.letters.entries ++
        modules.map fun module =>
          (letterOf settings module.1, entryOf settings module.1 module.2) := by
  induction modules generalizing draft with
  | nil => simp
  | cons module modules ih =>
    refine (ih _).trans ((listed_enter ..).append_right _ |>.trans ?_)
    simp

theorem nodup_letters : (draftOf settings modules).letters.keys.Nodup := by
  refine foldlRecOn (motive := fun draft : Draft => draft.letters.keys.Nodup) modules _ nodup_nil ?_
  intro draft distinct module _
  exact Table.nodup_insertEntry distinct

/-- Unless the name of a module is not shown, every module of the chosen documents has one entry
with an anchor: it leads to the module under its full name, and stands under the first letter of
the name that is shown.  The letters are in order. -/
theorem modules_listed_once (settings : IndexSettings) (modules : NameTable ModuleEntry)
    (documents : List Text) (named : ∀ module ∈ modules.entries, shownName settings module.1 ≠ []) :
    ∃ index, generate settings modules documents = .ok index ∧
      (index.letters.map Prod.fst).Pairwise (· < ·) ∧
      (index.letters.flatMap fun letter => (letter.2.filter (·.anchor ≠ [])).map
        fun entry => (letter.1, { entry with level := .single })) ~
        (modules.entries.filter fun module =>
          documents = [] ∨ module.2.document ∈ documents).map fun module =>
            (lowercase ((shownName settings module.1).take 1),
              entryOf settings module.1 module.2) := by
  have sorted := mergeSort_perm modules.entries fun a b => textLe (lowercase a.1) (lowercase b.1)
  have isChosen : chosen modules documents ~ modules.entries.filter fun module =>
      documents = [] ∨ module.2.document ∈ documents := by
    refine (sorted.filter _).trans (.of_eq (filter_congr fun module _ => ?_))
    rw [Bool.eq_iff_iff]
    simp
  have shown : ∀ module ∈ chosen modules documents, shownName settings module.1 ≠ [] :=
    fun module member => named module (mem_filter.mp (isChosen.mem_iff.mp member)).1
  refine ⟨_, (generate_eq ..).trans (if_pos shown), ?_, ?_⟩
  · let letters := (draftOf settings (chosen modules documents)).letters.entries
    have inOrder := pairwise_mergeSort_key Prod.fst letters
    have distinct : ((letters.mergeSort fun a b => textLe a.1 b.1).map Prod.fst).Nodup :=
      ((mergeSort_perm letters _).map Prod.fst).nodup_iff.mpr (nodup_letters ..)
    exact (pairwise_map.mpr inOrder).imp₂ (fun _ _ => lt_of_le_of_ne) distinct
  · refine ((mergeSort_perm _ _).flatMap_right _).trans ?_
    exact (listed_foldl settings (chosen modules documents) {}).trans (isChosen.map _)

def packages : NameTable ModuleEntry :=
  ⟨[("lib.+io", { document := "io", deprecated := true }), ("+tests", { document := "tests" }),
    ("lib.", { document := "lib" }), ("old", { document := "old" })]⟩

theorem modules_listed_once_packages :
    let settings : IndexSettings := ⟨["lib", "lib."], false⟩
    (∀ module ∈ packages.entries, shownName settings module.1 ≠ []) ∧
    ∃ index, generate settings packages ["io", "tests", "lib"] = .ok index ∧
      (index.letters.map Prod.fst).Pairwise (· < ·) ∧
      (index.letters.flatMap fun letter => (letter.2.filter (·.anchor ≠ [])).map
        fun entry => (letter.1, { entry with level := .single })) ~
        [("i".toList,
            ⟨"lib.io", .single, "io", "module-lib.+io", some [], "Deprecated", some []⟩),
          ("t".toList, ⟨"tests", .single, "tests", "module-+tests", some [], [], some []⟩),
          ("l".toList, ⟨"lib.", .single, "lib", "module-lib.", some [], [], some []⟩)] := by
  have named : ∀ module ∈ packages.entries, shownName ⟨["lib", "lib."], false⟩ module.1 ≠ [] := by
    decide
  exact ⟨named, modules_listed_once _ _ ["io", "tests", "lib"] named⟩

end ModuleIndex

end MatlabDocs
