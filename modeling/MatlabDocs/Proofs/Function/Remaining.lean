import MatlabDocs.Definition.Function

/-!
# What remains behind a function

A function takes at least its keyword from the tokens, leaves the last of them, and stays in its
module.  Nothing remains of a function whose name was not found.
-/

namespace MatlabDocs

theorem readCommentBlock_length_le (current : Token) (tokens : List Token) :
    (readCommentBlock current tokens).rest.length ≤ tokens.length := by
  fun_induction readCommentBlock current tokens with
  | case1 => simp
  | case2 => simp
  | case3 current comment lineEnd line next afterNext skipped block shorter =>
    have skips : skipped.2.length ≤ afterNext.length := skipIndentTokens_length_le next afterNext
    simp only [List.length_cons]
    exact Nat.le_trans shorter (by omega)
  | case4 => simp

namespace FunctionDef

variable (nesting : Nesting) (current : Token) (tokens : List Token)

theorem afterBody_length_le : (afterBody nesting current tokens).length ≤ tokens.length + 1 := by
  induction tokens generalizing nesting current with
  | nil => simp [afterBody]
  | cons next rest shorter =>
    rw [afterBody]
    split
    · simp
    · exact Nat.le_succ_of_le (shorter _ next)

theorem afterBody_ne_nil : afterBody nesting current tokens ≠ [] := by
  induction tokens generalizing nesting current with
  | nil => simp [afterBody]
  | cons next rest ih =>
    rw [afterBody]
    split
    · simp
    · exact ih _ next

/-- The function stays in its module.  If tokens remain, there is one of them at least, and they are
no more than these; there are none without a name.  The docstring is that of a comment block among
the tokens, if there is any. -/
structure Leaves (module : Text) (tokens : List Token) (reading : FunctionReading) : Prop where
  module_eq : reading.definition.module = module
  left : ∀ remaining, reading.definition.remaining = some remaining →
    remaining ≠ [] ∧ remaining.length ≤ tokens.length
  named : reading.definition.name = none → reading.definition.remaining = none
  documented : reading.definition.docstring = [] ∨ ∃ first rest, first :: rest <:+ tokens ∧
    reading.definition.docstring = (readCommentBlock first rest).text

theorem Leaves.of_suffix {module : Text} {tokens fewer : List Token} {reading : FunctionReading}
    (leaves : Leaves module fewer reading) (suffix : fewer <:+ tokens) :
    Leaves module tokens reading where
  module_eq := leaves.module_eq
  left := by
    intro remaining found
    obtain ⟨some, shorter⟩ := leaves.left remaining found
    exact ⟨some, Nat.le_trans shorter suffix.length_le⟩
  named := leaves.named
  documented := leaves.documented.imp_right fun ⟨first, rest, inside, text⟩ =>
    ⟨first, rest, inside.trans suffix, text⟩

/-- What is known of a function while its signature is read. -/
structure Opened (module : Text) (definition : FunctionDef) : Prop where
  inside : definition.module = module
  fresh : definition.remaining = none
  undocumented : definition.docstring = []

variable {module : Text} {definition : FunctionDef} (naming : Naming) (notices : List Notice)
  (opened : Opened module definition)

include opened in
theorem Opened.leaves (tokens : List Token) : Leaves module tokens ⟨definition, notices⟩ where
  module_eq := opened.inside
  left := fun _ found => by simp [opened.fresh] at found
  named := fun _ => opened.fresh
  documented := .inl opened.undocumented

section

variable (named : definition.name ≠ none)
include opened named

variable (tokens : List Token)

theorem readBody_leaves : Leaves module tokens (readBody definition notices tokens) := by
  have skips : skipBlankTokens tokens <:+ tokens := List.dropWhile_suffix _
  unfold readBody
  split
  · exact opened.leaves notices tokens
  · rename_i first rest equality
    rw [equality] at skips
    refine ⟨opened.inside, ?_, fun unnamed => absurd unnamed named, .inr ⟨first, rest, skips, rfl⟩⟩
    rintro remaining found
    obtain rfl := Option.some.inj found
    have body := afterBody_length_le ⟨1, 0⟩ (readCommentBlock first rest).ending
      (readCommentBlock first rest).rest
    have comments := readCommentBlock_length_le first rest
    have bounded := skips.length_le
    rw [List.length_cons] at bounded
    exact ⟨afterBody_ne_nil _ _ _, by omega⟩

private theorem readClosing_leaves :
    Leaves module tokens (readClosing naming definition notices tokens) := by
  unfold readClosing
  split
  · exact opened.leaves _ _
  · split
    · exact (readBody_leaves notices opened named _).of_suffix (List.suffix_cons _ _)
    · exact opened.leaves _ _

private theorem readArguments_leaves :
    Leaves module tokens (readArguments naming definition notices tokens) := by
  unfold readArguments
  split
  · exact opened.leaves _ _
  · rename_i opening rest
    split
    · split
      · exact opened.leaves _ _
      · rename_i first afterFirst
        have behind : afterFirst <:+ opening :: first :: afterFirst := ⟨[opening, first], rfl⟩
        split
        · have read : Opened module
              { definition with arguments := some (argumentNames first.value) } :=
            ⟨opened.inside, opened.fresh, opened.undocumented⟩
          exact (readClosing_leaves naming notices read named _).of_suffix behind
        split
        · exact (readClosing_leaves naming notices opened named _).of_suffix (List.suffix_cons _ _)
        · exact (readClosing_leaves naming notices opened named _).of_suffix behind
    · exact (readBody_leaves notices opened named _).of_suffix (List.suffix_cons _ _)

end

section

variable (given : definition.name = naming.given)
include opened given

private theorem readName_leaves (tokens : List Token) :
    Leaves module tokens (readName naming definition tokens) := by
  unfold readName
  split
  · exact opened.leaves _ _
  · rename_i token rest
    cases naming with
    | method =>
      have read : ∀ name, Opened module { definition with name := some name } :=
        fun _ => ⟨opened.inside, opened.fresh, opened.undocumented⟩
      exact (readArguments_leaves .method [] (read _) (by simp) _).of_suffix (List.suffix_cons _ _)
    | file name =>
      have named : definition.name ≠ none := by
        rw [given]
        exact Option.some_ne_none _
      exact (readArguments_leaves _ _ opened named _).of_suffix (List.suffix_cons _ _)

private theorem readOutputs_leaves (tokens : List Token) :
    Leaves module tokens (readOutputs naming definition tokens) := by
  unfold readOutputs
  split
  · exact opened.leaves _ _
  · rename_i first rest
    split
    · have read : Opened module { definition with outputs := outputNames first.value } :=
        ⟨opened.inside, opened.fresh, opened.undocumented⟩
      split
      · exact read.leaves _ _
      · rename_i equals afterEquals
        split
        · have behind : skipBlankTokens afterEquals <:+ first :: equals :: afterEquals :=
            (List.dropWhile_suffix _).trans ⟨[first, equals], rfl⟩
          exact (readName_leaves naming read given _).of_suffix behind
        · exact read.leaves _ _
    split
    · exact readName_leaves naming opened given _
    · exact (readName_leaves naming opened given _).of_suffix (List.suffix_cons _ _)

end

theorem read_leaves (module : Text) (first : Token) (rest : List Token) :
    Leaves module rest (read naming module (first :: rest)) := by
  have opened : Opened module { name := naming.given, module, tokens := first :: rest } :=
    ⟨rfl, rfl, rfl⟩
  exact (readOutputs_leaves naming opened rfl _).of_suffix (List.dropWhile_suffix _)

theorem module_read (module : Text) (tokens : List Token) :
    (read naming module tokens).definition.module = module := by
  cases tokens with
  | nil => rfl
  | cons first rest => exact (read_leaves naming module first rest).module_eq

end FunctionDef

end MatlabDocs
