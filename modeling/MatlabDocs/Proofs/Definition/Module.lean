import MatlabDocs.Definition.Application
import MatlabDocs.Definition.File
import MatlabDocs.Proofs.Class.Endless

/-!
# The module of a definition

A definition belongs to the module at the path that it was read for.  No step of a reader
changes the module that the reading started with, whether it goes on or halts.
-/

namespace MatlabDocs

theorem ClassDef.module_read {name module : Text} {tokens : List Token} {definition : ClassDef}
    (isRead : (ClassDef.read name module tokens).result = .ok definition) :
    definition.module = module := by
  have yields := reading_yields name module tokens
  rw [read_eq] at isRead
  cases outcome : reading name module tokens with
  | ok state =>
    rw [outcome] at isRead
    cases isRead
    exact (yields.of_ok outcome).1
  | error stop =>
    have inside := (yields.of_error outcome).1
    rw [outcome] at isRead
    obtain ⟨_ | _ | _ | _, state⟩ := stop <;> cases isRead <;> exact inside

namespace Definition

def module : Definition → Text
  | .function definition => definition.module
  | .class definition => definition.module
  | .script definition => definition.module
  | .application definition => definition.module

private theorem module_ofCode {name module code : Text} {definition : Definition}
    (isRead : (ofCode name module code).result = .ok definition) :
    definition.module = module := by
  unfold ofCode at isRead
  dsimp only at isRead
  split at isRead
  · split at isRead
    · rename_i first rest _ _
      cases result : (ClassDef.read name module (lex (prepareCode code))).result with
      | error fault =>
        simp [Reading.map, result, Except.map] at isRead
      | ok found =>
        simp only [Reading.map, result, Except.map] at isRead
        cases isRead
        exact ClassDef.module_read result
    split at isRead
    · cases isRead
      exact FunctionDef.module_read _ _ _
    · cases isRead
      rfl
  · cases isRead
    rfl

theorem module_ofBytes {name path : Text} {encoding : Option Text} {bytes : List UInt8}
    {definition : Definition}
    (isRead : (ofBytes name path encoding bytes).result = .ok definition) :
    definition.module = moduleOfPath path := by
  unfold ofBytes at isRead
  split at isRead
  · cases isRead
  · exact module_ofCode isRead

end Definition

end MatlabDocs
