import MatlabDocs.Page.Entry
import MatlabDocs.Proofs.Catalog.Coherence
import MatlabDocs.Proofs.Page.MemberChoice

/-!
# How pages are written

The steps that write a page are run one after another.  All that they do to the catalog is
loading, giving notice, and setting the folder that sources are looked for in; so what was
loaded stays, and no notice is lost.
-/

set_option mvcgen.warning false

namespace MatlabDocs

open List Catalog

namespace Catalog

/-- A step of writing: a step of loading, or the setup for an entry. -/
inductive Step : Catalog → Catalog → Prop where
  | change {before after : Catalog} : Change before after → Step before after
  | setup {catalog : Catalog} (root : Text) (encoding : Option Text) (forPages : Bool) :
      Step catalog { catalog with root, encoding, forPages }

abbrev LeadsTo : Catalog → Catalog → Prop :=
  Relation.ReflTransGen Step

section

variable {before after : Catalog}

theorem Reaches.leadsTo (reaches : before.Reaches after) : before.LeadsTo after :=
  Relation.ReflTransGen.mono (fun _ _ change => Step.change change) _ _ reaches

theorem Step.grows (step : Step before after) : before.Grows after := by
  cases step with
  | change change => exact change.grows
  | setup root encoding forPages => exact .of_eq rfl rfl rfl

theorem LeadsTo.grows (leadsTo : before.LeadsTo after) : before.Grows after := by
  induction leadsTo with
  | refl => exact .of_eq rfl rfl rfl
  | tail _ step ih => exact ih.trans step.grows

@[grind →] theorem LeadsTo.of_reaches {start : Catalog} (leadsTo : start.LeadsTo before)
    (reaches : before.Reaches after) : start.LeadsTo after :=
  leadsTo.trans reaches.leadsTo

@[grind →] theorem LeadsTo.trans {start : Catalog} (first : start.LeadsTo before)
    (second : before.LeadsTo after) : start.LeadsTo after :=
  Relation.ReflTransGen.trans first second

theorem Step.keepsModules (step : Step before after) : before.KeepsModules after.analyses := by
  cases step with
  | change change => exact change.keepsModules
  | setup root encoding forPages => exact .refl before

theorem LeadsTo.keepsModules (leadsTo : before.LeadsTo after) :
    before.KeepsModules after.analyses := by
  induction leadsTo with
  | refl => exact .refl before
  | tail _ step ih => exact ih.trans step.keepsModules

theorem Change.notices_grow (change : Change before after) : before.notices <+: after.notices := by
  cases change with
  | notice notices => exact prefix_append _ _
  | analysis analyzed _ _ => exact prefix_rfl
  | definition added => exact prefix_rfl
  | folder leads new => exact prefix_rfl
  | member loaded free new stands => exact prefix_rfl

theorem Reaches.notices_grow (reaches : before.Reaches after) :
    before.notices <+: after.notices := by
  induction reaches with
  | refl => exact prefix_rfl
  | tail _ change ih => exact ih.trans change.notices_grow

end

end Catalog

namespace Writes

open Loads Std.Do

variable {α β : Type} {action : Writes α} {next : α → Writes β} {before middle after : PageState}

theorem ok_of_lift {outcome : Except Fault α} {value : α}
    (run : (liftM outcome : Writes α) before = (.ok value, after)) :
    outcome = .ok value ∧ after = before := by
  cases outcome with
  | error fault => cases run
  | ok other =>
    cases run
    exact ⟨rfl, rfl⟩

theorem tryCatch_of_ok {handle : Fault → Writes α} {value : α}
    (given : action before = (.ok value, middle)) :
    tryCatch action handle before = (.ok value, middle) := by
  simp only [tryCatch, tryCatchThe, MonadExceptOf.tryCatch, ExceptT.tryCatch, ExceptT.mk, bind,
    StateT.bind, given]
  rfl

theorem tryCatch_of_error {handle : Fault → Writes α} {fault : Fault}
    (given : action before = (.error fault, middle)) :
    tryCatch action handle before = handle fault middle := by
  simp [tryCatch, tryCatchThe, MonadExceptOf.tryCatch, ExceptT.tryCatch, ExceptT.mk, bind,
    StateT.bind, given]

abbrev kept {α : Type} (start : Catalog) : PostCond α (.except Fault (.arg PageState .pure)) :=
  post⟨fun _ state => ⌜start.LeadsTo state.catalog⌝, fun _ state => ⌜start.LeadsTo state.catalog⌝⟩

/-- Whatever comes of the action, all that it does to the catalog belongs to writing. -/
abbrev Moves (action : Writes α) (start : Catalog) : Prop :=
  ⦃fun state => ⌜start.LeadsTo state.catalog⌝⦄ action ⦃kept start⦄

namespace Moves

variable {start : Catalog}

theorem leadsTo (moves : action.Moves before.catalog) {outcome : Except Fault α}
    (run : action before = (outcome, after)) : before.catalog.LeadsTo after.catalog := by
  have moved := moves before .refl
  rw [wp_eq, run] at moved
  cases outcome <;> exact moved

@[spec] theorem of_lift {outcome : Except Fault α} :
    (MonadLift.monadLift outcome : Writes α).Moves start := by
  intro before
  rw [wp_eq]
  cases outcome <;> exact id

theorem mapM (each : ∀ value start, (next value).Moves start) (items : List α) :
    (items.mapM next).Moves start := by
  induction items generalizing start with
  | nil => mvcgen
  | cons item items ih =>
    rw [mapM_cons]
    mvcgen [each, ih] <;> grind

theorem forM {each : α → Writes Unit} (moves : ∀ value start, (each value).Moves start)
    (items : List α) : (items.forM each).Moves start := by
  induction items generalizing start with
  | nil => mvcgen
  | cons item items ih =>
    rw [List.forM]
    mvcgen [moves, ih] <;> grind

end Moves

/-- A result of running an action on each item is one of running it on some item meanwhile. -/
theorem exists_of_mem_mapM (moves : ∀ value start, (next value).Moves start) {items : List α}
    {results : List β} (run : items.mapM next before = (.ok results, after)) {result : β}
    (member : result ∈ results) :
    ∃ item ∈ items, ∃ first last : PageState, before.catalog.LeadsTo first.catalog ∧
      next item first = (.ok result, last) ∧ last.catalog.LeadsTo after.catalog := by
  induction items generalizing before results with
  | nil =>
    cases run
    cases member
  | cons item items ih =>
    rw [mapM_cons] at run
    obtain ⟨head, middle, headRun, rest⟩ := ok_of_bind run
    obtain ⟨tail, last, tailRun, isLast⟩ := ok_of_bind rest
    cases isLast
    have headMoves := (moves item _).leadsTo headRun
    have tailMoves := (Moves.mapM moves items).leadsTo tailRun
    rcases mem_cons.mp member with rfl | inTail
    · exact ⟨item, mem_cons_self, before, middle, .refl, headRun, tailMoves⟩
    · obtain ⟨other, isItem, first, last, reached, ran, reaches⟩ := ih tailRun inTail
      exact ⟨other, mem_cons_of_mem item isItem, first, last, headMoves.trans reached, ran, reaches⟩

end Writes

namespace Page

variable {α : Type}

theorem loads_eq (action : Loads α) (state : PageState) :
    loads action state =
      ((action state.catalog).1, { state with catalog := (action state.catalog).2 }) := by
  have isRun : action.run.run state.catalog = action state.catalog := rfl
  rw [loads, Loads.bind_of_ok (rfl : (get : Writes PageState) state = (.ok state, state)), isRun]
  rcases action state.catalog with ⟨fault | value, after⟩
  · rfl
  · rfl

theorem ok_of_loads {action : Loads α} {value : α} {before after : PageState}
    (run : loads action before = (.ok value, after)) :
    action before.catalog = (.ok value, after.catalog) := by
  rw [loads_eq] at run
  rcases given : action before.catalog with ⟨outcome, last⟩
  rw [given] at run
  cases run
  rfl

open Std.Do

/-- A run of a load does to the catalog of a page what the load does. -/
@[spec] theorem spec_loads (action : Loads α)
    (post : PostCond α (.except Fault (.arg PageState .pure))) :
    ⦃fun state => wp⟦action⟧ (fun value catalog => post.1 value { state with catalog },
      fun fault catalog => post.2.1 fault { state with catalog }, ()) state.catalog⦄
    loads action ⦃post⦄ := by
  intro state
  show _ ⊢ₛ wp⟦loads action⟧ post state
  dsimp only
  rw [Loads.wp_eq, Loads.wp_eq, loads_eq]
  rcases action state.catalog with ⟨fault | value, after⟩ <;> exact id

variable {start : Catalog}

@[spec] theorem warn_moves {text : Text} : (warn text).Moves start := by
  mvcgen [warn, notify]
  exact Relation.ReflTransGen.tail ‹_› (.change (.notice _))

@[spec] theorem addLine_moves {indent text source : Text} :
    (addLine indent text source).Moves start := by
  mvcgen [addLine]

attribute [spec] catalog addDependency enterScope leaveScope

end Page

/-! ### Lookups for entries -/

namespace Catalog

attribute [spec] partOrNothing statedModule membersOf asClass baseLinks

variable {start : Catalog} {value : Value} {name : Text}

@[spec] theorem part?_moves : (part? value name).Moves start := by
  cases value with
  | entity entity => cases entity <;> mvcgen [part?] <;> grind
  | _ => exact .of_run fun _ => .refl

@[spec] theorem part_moves : (part value name).Moves start := by
  mvcgen [part] <;> grind

end Catalog

namespace Page

attribute [spec] docstring? docLines? argumentsOf constructor isStatic defaultOf attributesOf

variable {start : Catalog} {value : Value} {settings : PageSettings} {sort : EntrySort}
  {finding : Finding} {analysis : Option Text}

private theorem followPath_moves {path : List Text} {parent : Value} :
    (followPath parent value path).Moves start := by
  induction path generalizing parent value start with
  | nil => mvcgen [followPath]
  | cons part path ih => mvcgen [followPath, ih] <;> grind

@[spec] theorem lookUp_moves {name : EntryName} : (lookUp name).Moves start := by
  mvcgen [lookUp, followPath_moves] <;> grind

@[spec] theorem formatArguments_moves : (formatArguments sort value).Moves start := by
  mvcgen [formatArguments] <;> grind

@[spec] theorem signatureFromDocstring_moves :
    (signatureFromDocstring settings finding).Moves start := by
  mvcgen [signatureFromDocstring] <;> grind

@[spec] theorem signatureFromConstructor_moves :
    (signatureFromConstructor settings finding).Moves start := by
  mvcgen [signatureFromConstructor] <;> grind

@[spec] theorem constructorDocstring_moves :
    (constructorDocstring settings finding).Moves start := by
  mvcgen [constructorDocstring] <;> grind

@[spec] theorem docstringLines_moves {signatureRest : Option (List Text)} :
    (docstringLines settings sort finding signatureRest).Moves start := by
  mvcgen [docstringLines, classDocstrings] <;> grind

@[spec] theorem isAnalyzed_moves : (isAnalyzed analysis finding).Moves start := by
  mvcgen [isAnalyzed] <;> grind

/-! ### Entries -/

section

open Writes

attribute [spec] findEntry statedSignature writtenSignature moduleOf allNames partNames analyzedDocs

variable {writing : Writing} {request : EntryRequest} {options : EntryOptions} {document : Text}
  {name : EntryName} {names : List Text} {source indent signature directive : Text}
  {wantAll : Bool} {members : List (Text × Value)}

@[spec] theorem enterFolder_moves : (enterFolder settings document name).Moves start :=
  fun _ reached => Relation.ReflTransGen.tail reached (.setup _ _ _)

@[spec] theorem find?_moves : (find? settings document sort name).Moves start := by
  mvcgen [find?] <;> grind

@[spec] theorem readName_moves {name : Text} : (readName settings sort name).Moves start := by
  unfold readName
  mvcgen <;> grind

@[spec] theorem signatureOf_moves : (signatureOf settings sort finding).Moves start := by
  mvcgen [signatureOf] <;> grind

@[spec] theorem directiveOf_moves : (directiveOf sort finding).Moves start := by
  unfold directiveOf
  mvcgen

@[spec] theorem analyzedModule_moves : (analyzedModule request finding).Moves start := by
  unfold analyzedModule
  mvcgen <;> grind

@[spec] theorem isWanted_moves : (isWanted request finding).Moves start := by
  unfold isWanted
  mvcgen <;> grind

@[spec] theorem analyze_moves {module : Text} : (analyze module).Moves start := by
  mvcgen [analyze] <;> grind

@[spec] theorem addLines_moves {lines : List PageLine} : (addLines indent lines).Moves start :=
  .forM (fun _ _ => addLine_moves) lines

private theorem addDirective_moves :
    (addDirective directive options finding source indent signature).Moves start := by
  unfold addDirective
  mvcgen [Moves.forM] <;> first | exact addLine_moves | grind

theorem addHeader_moves :
    (addHeader sort directive options finding source indent signature).Moves start := by
  unfold addHeader addModuleOptions addBases addDefault addValue
  mvcgen [addDirective_moves] <;> grind

theorem addContent_moves {signatureRest : Option (List Text)} {more : List PageLine} :
    (addContent settings sort finding analysis indent signatureRest more).Moves start := by
  unfold addContent
  mvcgen <;> grind

@[spec] theorem moduleMembers_moves : (moduleMembers value names).Moves start := by
  induction names generalizing start with
  | nil => mvcgen [moduleMembers]
  | cons name names ih =>
    rw [moduleMembers]
    mvcgen [ih] <;> grind

@[spec] theorem namedMembers_moves {analyzed : List Text} :
    (namedMembers finding analyzed names).Moves start := by
  induction names generalizing start with
  | nil => mvcgen [namedMembers]
  | cons name names ih =>
    rw [namedMembers]
    mvcgen [ih] <;> grind

theorem partNames_moves : (partNames value).Moves start := by
  mvcgen <;> grind

theorem analyzedDocs_moves : (analyzedDocs analysis).Moves start := by
  mvcgen <;> grind

theorem partOrNothing_moves {name : Text} :
    (do return (name, ← loads (partOrNothing value name)) : Writes _).Moves start := by
  mvcgen <;> grind

@[spec] theorem allMembers_moves : (allMembers value).Moves start := by
  unfold allMembers
  mvcgen [partNames_moves, Moves.mapM] <;> first | exact partOrNothing_moves | grind

@[spec] theorem membersOf_moves :
    (membersOf sort options finding analysis wantAll).Moves start := by
  unfold membersOf
  mvcgen <;> grind

theorem chooseMember_moves {analyzed : Bool} {name : Text} :
    (chooseMember settings options wantAll analyzed name value).Moves start := by
  unfold chooseMember
  mvcgen <;> grind

@[spec] theorem chooseMembers_moves :
    (chooseMembers settings options finding analysis wantAll members).Moves start := by
  unfold chooseMembers
  mvcgen [Moves.mapM] <;> first | exact chooseMember_moves | grind

@[spec] theorem memberEntries_moves {analysis : Text} :
    (memberEntries writing request finding analysis).Moves start := by
  unfold memberEntries
  mvcgen <;> grind

section

variable {writeMember : EntryRequest → Writes Unit}
  (moves : ∀ request start, (writeMember request).Moves start)
include moves

private theorem writeMembers_moves {module analysis : Text} :
    (writeMembers writing request finding module analysis indent writeMember).Moves start := by
  unfold writeMembers
  mvcgen [Moves.forM] <;> first | exact moves _ _ | grind

theorem writeFinding_moves : (writeFinding writing request finding writeMember).Moves start := by
  unfold writeFinding
  mvcgen [addHeader_moves, addContent_moves, writeMembers_moves] <;>
    first | exact moves _ _ | grind

end

private theorem writeTo_moves {depth : Nat} : (writeTo writing depth request).Moves start := by
  induction depth generalizing request start with
  | zero => mvcgen [writeTo]
  | succ depth ih =>
    rw [writeTo]
    mvcgen [writeFinding_moves] <;> first | exact ih | grind

end

def writeAll (entries : List (Writing × EntryRequest)) (state : PageState) : PageState :=
  entries.foldl (fun state (writing, request) => (write writing request state).2) state

theorem leadsTo_writeAll (entries : List (Writing × EntryRequest)) (state : PageState) :
    state.catalog.LeadsTo (writeAll entries state).catalog := by
  induction entries generalizing state with
  | nil => exact .refl
  | cons entry entries ih =>
    have moves : (write entry.1 entry.2).Moves state.catalog := writeTo_moves
    exact (moves.leadsTo rfl).trans (ih _)

end Page

end MatlabDocs
