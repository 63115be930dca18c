import MatlabDocs.Proofs.Catalog.Stability

/-!
# The namespaces of analyses

The docstrings in the analysis of a module are kept under the name of the module, and those of
the members of a class under the name of the class behind it.  No other namespace occurs in any
analysis, whatever has been loaded.
-/

namespace MatlabDocs

/-- The namespace of the members of a module, or of a class in it. -/
def IsSpaceOf (module space : Text) : Prop :=
  space = module ∨ ∃ name, space = module ++ "." ++ name

namespace MemberDocs

/-- All docstrings stand in namespaces of the module. -/
def BelongTo (docs : MemberDocs) (module : Text) : Prop :=
  ∀ space member, docs.docstrings.contains (space, member) → IsSpaceOf module space

variable {docs : MemberDocs} {module : Text}

theorem BelongTo.add (belong : docs.BelongTo module) {space : Text}
    (isSpace : IsSpaceOf module space) (member tag : Text) (docstring : Value) :
    (docs.add space member tag docstring).BelongTo module := by
  intro other name contained
  rw [MemberDocs.add, Table.contains, Table.get?_insert] at contained
  split at contained
  · rename_i same
    cases same
    exact isSpace
  · exact belong other name contained

variable {catalog : Catalog}

theorem BelongTo.addClass (belong : docs.BelongTo module) {name : Text} {number : Nat}
    {definition : ClassDef} {added : MemberDocs}
    (run : docs.addClass catalog module name number definition = .ok added) :
    added.BelongTo module := by
  rw [MemberDocs.addClass] at run
  obtain ⟨members, _, isAdded⟩ := Loads.ok_of_except run
  cases isAdded
  clear run
  -- Each member of the class is added to the namespace of the class.
  generalize members.entries = entries
  induction entries generalizing docs with
  | nil => exact belong
  | cons entry entries ih =>
    exact ih (belong.add (.inr ⟨name, rfl⟩) entry.1 _ _)

theorem BelongTo.addMember (belong : docs.BelongTo module) {catalog : Catalog}
    {member : Text × Value} {added : MemberDocs}
    (run : addMember catalog module docs member = .ok added) : added.BelongTo module := by
  have own : (docs.addOwn catalog module member.1 member.2).BelongTo module := by
    rw [MemberDocs.addOwn]
    split
    · exact belong.add (.inl rfl) _ _ _
    · exact belong
  rw [MemberDocs.addMember] at run
  split at run
  · exact own.addClass run
  · cases run
    exact own

private theorem BelongTo.addMembers {start : MemberDocs} (belong : start.BelongTo module)
    {members : List (Text × Value)}
    (run : members.foldlM (MemberDocs.addMember catalog module) start = .ok docs) :
    docs.BelongTo module := by
  induction members generalizing start with
  | nil =>
    cases run
    exact belong
  | cons member members ih =>
    rw [List.foldlM_cons] at run
    obtain ⟨next, added, run⟩ := Loads.ok_of_except run
    exact ih (belong.addMember added) run

theorem belongTo_ofMembers {members : List (Text × Value)}
    (run : ofMembers catalog module members = .ok docs) : docs.BelongTo module := by
  have empty : BelongTo {} module := fun _ _ contained => by cases contained
  exact empty.addMembers run

end MemberDocs

namespace Catalog

/-- The docstrings of each analysis stand in namespaces of its module. -/
def AnalysesInPlace (catalog : Catalog) : Prop :=
  ∀ path analysis docs, catalog.analyses.get? path = some analysis →
    analysis.docs = some docs → docs.BelongTo analysis.module

variable {before after : Catalog}

theorem Change.analysesInPlace (change : Change before after) (inPlace : before.AnalysesInPlace) :
    after.AnalysesInPlace := by
  cases change with
  | notice notices => exact inPlace
  | analysis analyzed _ collects =>
    intro path analysis docs known isDocs
    rcases collects path analysis known with old | new
    · exact inPlace path analysis docs old isDocs
    · obtain ⟨members, collected⟩ := new docs isDocs
      exact MemberDocs.belongTo_ofMembers collected
  | definition added => exact inPlace
  | folder leads new => exact inPlace
  | member loaded free new stands => exact inPlace

/-- A docstring that is found at a path stands in a namespace of the module that is analyzed
there. -/
theorem memberDocs_belong {path space member : Text} {docs : MemberDocs}
    (inPlace : before.AnalysesInPlace) (run : memberDocs path before = (.ok docs, after))
    (contained : docs.docstrings.contains (space, member)) :
    ∃ analysis, after.analyses.get? path = some analysis ∧ IsSpaceOf analysis.module space := by
  rcases memberDocs_cases path before with
    ⟨_, none⟩ | ⟨analysis, known, ⟨kept, isKept, there⟩ | new⟩
  · cases none.symm.trans run
    cases contained
  · cases there.symm.trans run
    exact ⟨analysis, known, inPlace path analysis docs known isKept space member contained⟩
  · obtain ⟨middle, _, ⟨fault, failed⟩ | ⟨members, found, collected, there⟩⟩ := new
    · cases failed.symm.trans run
    · cases there.symm.trans run
      refine ⟨{ analysis with docs := some docs }, by simp [withDocs, Table.get?_insert], ?_⟩
      exact MemberDocs.belongTo_ofMembers collected space member contained

end Catalog

end MatlabDocs
