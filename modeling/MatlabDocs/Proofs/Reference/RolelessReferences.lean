import MatlabDocs.Proofs.Reference.Anchored

/-!
# References without a role

A reference without a role is resolved under every role in turn, each under its full name, which
starts with the name of the domain.  The lookup knows the roles by their short names only, so it
takes none of them into account: a narrow lookup finds nothing, and a plain one leads to the same
object under every role, whatever types the role admits.
-/

namespace MatlabDocs

open List

def fullRole (role : Text) : Text :=
  "mat:" ++ role

def admits (role type : Text) : Bool :=
  ((typesForRole? role).getD []).contains type

section

variable {role short : Text}

theorem fullRole_beq (noColon : ':' ∉ short) : (fullRole role == short) = false := by
  refine beq_false_of_ne ?_
  rintro rfl
  exact noColon (by simp [fullRole])

theorem typesForRole?_fullRole (role : Text) : typesForRole? (fullRole role) = none := by
  have noColon : ∀ entry ∈ objectRoles, ':' ∉ entry.2 := by decide
  have noTypes : objectRoles.filter
      (fun entry => fullRole role == "obj".toList || fullRole role == entry.2) = [] := by
    refine filter_eq_nil_iff.mpr fun entry member => ?_
    rw [@fullRole_beq role "obj" (by decide), fullRole_beq (noColon entry member)]
    exact Bool.false_ne_true
  rw [typesForRole?]
  exact if_pos (isEmpty_iff.mpr noTypes)

theorem typesForRole?_nil : typesForRole? [] = none := by
  decide

theorem plainScopes_fullRole (scope : NameScope) (role name : Text) :
    scope.plainScopes (fullRole role) name = scope.plainScopes [] name := by
  rw [NameScope.plainScopes, @fullRole_beq role "mod" (by decide),
    @fullRole_beq role "exc" (by decide), @fullRole_beq role "func" (by decide),
    @fullRole_beq role "meth" (by decide)]
  rfl

end

/-- At most two of the roles refer to objects of one type: its own role, and the one for all
objects. -/
theorem length_filter_admits_le (type : Text) : (roleNames.filter (admits · type)).length ≤ 2 := by
  by_cases known : type ∈ objectRoles.map Prod.fst
  · have all : ∀ type ∈ objectRoles.map Prod.fst,
        (roleNames.filter (admits · type)).length ≤ 2 := by
      decide
    exact all type known
  · have none : roleNames.filter (admits · type) = [] := by
      refine filter_eq_nil_iff.mpr fun role _ admitted => ?_
      have isType := contains_iff_mem.mp admitted
      rw [typesForRole?] at isType
      dsimp only at isType
      split at isType
      · cases isType
      · exact known (map_subset _ filter_sublist.subset isType)
    rw [none]
    exact Nat.zero_le 2

namespace ReferenceTables

variable {tables : ReferenceTables} {source : Text} {scope : NameScope} {role target : Text}
  {narrow : Bool}

section

variable (tables source scope role target narrow)

private theorem findObjects_fullRole :
    tables.findObjects scope (fullRole role) target narrow =
      tables.findObjects scope [] target narrow := by
  rw [findObjects_eq, findObjects_eq, typesForRole?_fullRole, typesForRole?_nil, findPlain_eq,
    findPlain_eq, plainScopes_fullRole]

theorem resolve_fullRole :
    tables.resolve source scope (fullRole role) target narrow =
      tables.resolve source scope [] target narrow := by
  rw [resolve, resolve, findObjects_fullRole]

theorem notices_resolve_roleless : (tables.resolve source scope [] target narrow).notices = [] := by
  have few : ¬1 < (tables.findObjects scope [] target narrow).length := by
    cases narrow with
    | false => exact Nat.not_lt.mpr (length_findObjects_plain ..)
    | true =>
      rw [findObjects_narrow_untyped typesForRole?_nil]
      exact Nat.not_lt_zero 1
  rw [resolve]
  simp only [if_neg few]
  split
  · rfl
  · split
    · split
      · rfl
      · split <;> rfl
    · rfl

end

theorem foldl_addRole_error (fault : Fault) (notices : List Notice) (roles : List Text) :
    roles.foldl (tables.addRole source scope target narrow) ⟨.error fault, notices⟩ =
      ⟨.error fault, notices⟩ := by
  induction roles with
  | nil => rfl
  | cons role roles ih => exact ih

private theorem foldl_addRole_ok {reference : Option ResolvedReference} (leads : ∀ role,
      tables.resolve source scope (fullRole role) target narrow = ⟨.ok reference, []⟩)
    (roles : List Text) (found : List (Text × ResolvedReference)) :
    roles.foldl (tables.addRole source scope target narrow) ⟨.ok found, []⟩ =
      ⟨.ok (found ++ roles.flatMap fun role => (reference.map (fullRole role, ·)).toList), []⟩ := by
  induction roles generalizing found with
  | nil => simp
  | cons role roles ih =>
    have step : tables.addRole source scope target narrow ⟨.ok found, []⟩ role =
        ⟨.ok (found ++ (reference.map (fullRole role, ·)).toList), []⟩ := by
      have next := leads role
      rw [fullRole] at next
      rw [addRole]
      simp only [next]
      rfl
    rw [foldl_cons, step, ih, flatMap_cons, append_assoc]

/-- Under every role a reference leads where it leads without a role. -/
theorem resolveAny_eq (tables : ReferenceTables) (source : Text) (scope : NameScope)
    (target : Text) (narrow : Bool) :
    tables.resolveAny source scope target narrow =
      ⟨(tables.resolve source scope [] target narrow).result.map fun reference =>
        roleNames.flatMap fun role => (reference.map (fullRole role, ·)).toList, []⟩ := by
  have leads : ∀ role, tables.resolve source scope (fullRole role) target narrow =
      ⟨(tables.resolve source scope [] target narrow).result, []⟩ := by
    intro role
    rw [resolve_fullRole, ← notices_resolve_roleless tables source scope target narrow]
  cases result : (tables.resolve source scope [] target narrow).result with
  | error fault =>
    have first : tables.addRole source scope target narrow ⟨.ok [], []⟩ "data" =
        ⟨.error fault, []⟩ := by
      have next := leads "data"
      rw [fullRole, result] at next
      rw [addRole]
      simp only [next]
      rfl
    rw [resolveAny, roleNames, foldl_cons, first, foldl_addRole_error]
    rfl
  | ok reference =>
    rw [result] at leads
    rw [resolveAny, foldl_addRole_ok leads]
    rfl

private theorem resolve_eq_some {reference : ResolvedReference}
    (resolved : (tables.resolve source scope role target narrow).result = .ok (some reference)) :
    ∃ name entry, (name, entry) ∈ tables.findObjects scope role target narrow ∧
      reference.document.getD source = entry.document ∧
      reference.anchor = entryAnchor name entry := by
  rw [resolve] at resolved
  split at resolved
  · cases resolved
  · rename_i name entry others found
    refine ⟨name, entry, found ▸ mem_cons_self, ?_⟩
    rw [entryAnchor]
    split at resolved
    · rename_i isModule
      rw [if_pos (eq_of_beq isModule)]
      split at resolved
      · cases resolved
      · rename_i module _
        split at resolved
        · rename_i sameDocument
          obtain rfl := Option.some.inj (Except.ok.inj resolved)
          exact ⟨(document_leadTo ..).trans sameDocument, rfl⟩
        · cases resolved
    · rename_i notModule
      rw [if_neg (by simpa using notModule)]
      obtain rfl := Option.some.inj (Except.ok.inj resolved)
      exact ⟨document_leadTo .., rfl⟩

end ReferenceTables

open ReferenceTables in
/-- A reference without a role leads, under every role, where it leads for no role at all.  So a
narrow lookup finds nothing, and the results of a plain one are none, or one for each of the roles
that all lead to one object with the name, of whose type at most two of the roles are. -/
theorem roleless_references_ignore_roles (tables : ReferenceTables) (source : Text)
    (scope : NameScope) (target : Text) (narrow : Bool) :
    let any := tables.resolveAny source scope target narrow
    any.notices = [] ∧
    (any.result = (tables.resolve source scope [] target narrow).result.map fun reference =>
      roleNames.flatMap fun role => (reference.map (fullRole role, ·)).toList) ∧
    (narrow → any.result = .ok []) ∧
    ∀ results, any.result = .ok results →
      results = [] ∨
      ∃ name entry reference,
        tables.objects.get? name = some entry ∧
        (name = withoutCall target ∨ '.' :: withoutCall target <:+ name) ∧
        reference.document.getD source = entry.document ∧
        reference.anchor = entryAnchor name entry ∧
        results = (roleNames.map fun role => (fullRole role, reference)) ∧
        (roleNames.filter (admits · entry.type)).length ≤ 2 := by
  intro any
  have isAny : any = _ := resolveAny_eq tables source scope target narrow
  have same : any.result = (tables.resolve source scope [] target narrow).result.map
      fun reference => roleNames.flatMap fun role => (reference.map (fullRole role, ·)).toList := by
    rw [isAny]
  refine ⟨by rw [isAny], same, ?_, ?_⟩
  · rintro rfl
    rw [same, resolve, findObjects_narrow_untyped typesForRole?_nil]
    rfl
  · intro results isOk
    rw [same] at isOk
    cases resolved : (tables.resolve source scope [] target narrow).result with
    | error fault =>
      rw [resolved] at isOk
      cases isOk
    | ok lead =>
      rw [resolved] at isOk
      obtain rfl := Except.ok.inj isOk
      cases lead with
      | none => exact .inl rfl
      | some reference =>
        obtain ⟨name, entry, found, document, anchor⟩ := resolve_eq_some resolved
        have isPlain : narrow = false := by
          cases narrow with
          | false => rfl
          | true => simp [findObjects_narrow_untyped typesForRole?_nil] at found
        subst isPlain
        obtain ⟨entered, named⟩ := of_mem_findObjects_plain found
        exact .inr ⟨name, entry, reference, entered, named, document, anchor,
          map_eq_flatMap.symm, length_filter_admits_le entry.type⟩

/-- A function is found under all eleven roles, of which all but two are for other objects. -/
theorem function_referenced_under_every_role :
    let tables : ReferenceTables := { objects := ⟨[("scale", ⟨"index", "function"⟩)]⟩ }
    let results := ["mat:data".toList, "mat:exc", "mat:func", "mat:class", "mat:const", "mat:attr",
      "mat:meth", "mat:mod", "mat:obj", "mat:scpt", "mat:app"].map
        fun role => (role, (⟨none, "scale", "scale"⟩ : ResolvedReference))
    (tables.resolveAny "index" {} "scale" false).result = .ok results ∧
    ¬(results.map Prod.snd).Nodup ∧
    typesForRole? "data" = some ["data".toList] := by
  refine ⟨rfl, ?_, ?_⟩ <;> decide

end MatlabDocs
