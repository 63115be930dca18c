import MatlabDocs.Proofs.Reference.PackageSigns

/-!
# Names inside of a class

Inside of a class the name of a description is qualified by the class, unless its path gives the
class already.  Whether it does is told from the letters of the class alone.  So a path that
begins with a longer name, which has the name of the class in front, is taken for a path that
gives the class: nothing is put in front of it, and the rest of the longer name is shown.
-/

namespace MatlabDocs

open List Option

/-- A path begins with a class and a dot. -/
def GivesClass (owner path : Text) : Prop :=
  owner ++ ['.'] <+: path

instance (owner path : Text) : Decidable (GivesClass owner path) :=
  inferInstanceAs (Decidable (_ <+: _))

/-- A path begins with the letters of a class, but does not give the class. -/
def Overlaps (owner path : Text) : Prop :=
  owner <+: path ∧ ¬GivesClass owner path

/-- The full name of an object in a class: the path and the name, with the class in front unless
the path gives it. -/
def fullNameWithin (owner path name : Text) : Text :=
  if GivesClass owner path then path ++ name else owner ++ ['.'] ++ path ++ name

/-- A path without the class that it gives. -/
def pathWithin (owner path : Text) : Text :=
  if GivesClass owner path then path.drop (owner.length + 1) else path

variable {owner path name text : Text} {parts : SignatureParts}

theorem GivesClass.isPrefix (given : GivesClass owner path) : owner <+: path :=
  (prefix_append owner ['.']).trans given

/-- What follows the letters of a class in a path. -/
theorem givesClass_append_iff (rest : Text) :
    GivesClass owner (owner ++ rest) ↔ rest.head? = some '.' := by
  rw [GivesClass, prefix_append_right_inj]
  cases rest <;> simp [eq_comm]

theorem SignatureParts.dot_not_mem_of_isSimpleName (simple : isSimpleName name) : '.' ∉ name := by
  have notWord : isWord '.' = false := by decide
  have ofWords : ∀ {word : Text}, word.all isWord → '.' ∉ word := by
    intro word words member
    rw [List.all_eq_true.mp words _ member] at notWord
    cases notWord
  cases name with
  | nil => exact not_mem_nil
  | cons c rest =>
    rw [isSimpleName] at simple
    split at simple
    · rename_i isSign
      rw [Bool.and_eq_true] at simple
      apply not_mem_cons_of_ne_of_not_mem _ (ofWords simple.2)
      rintro rfl
      cases isSign
    · exact ofWords simple

theorem SignatureParts.dot_not_mem_of_ofDescription? (accepted : ofDescription? text = some parts) :
    '.' ∉ parts.name := by
  rw [ofDescription?, read?] at accepted
  dsimp only at accepted
  split at accepted
  · rename_i simple
    rw [Bool.and_eq_true] at simple
    obtain ⟨_, _, rfl⟩ := map_eq_some_iff.mp accepted
    exact dot_not_mem_of_isSimpleName simple.1
  · cases accepted

/-- The letters of the class decide about the full name and the shown path. -/
theorem qualify_within (notEmpty : owner ≠ []) (path? : Option Text) (name : Text) :
    let path := path?.getD []
    let qualified := qualify (some owner) path? name
    qualified.1 = (if owner <+: path then path else owner ++ ['.'] ++ path) ++ name ∧
      qualified.2.1 = owner ∧
      qualified.2.2.getD [] =
        if owner <+: path then (path.drop owner.length).dropWhile (· == '.') else path := by
  dsimp only
  cases path? with
  | none =>
    have apart : ¬owner <+: [] := by simpa using notEmpty
    rw [getD_none, if_neg apart, if_neg apart, append_nil]
    exact ⟨rfl, rfl, rfl⟩
  | some path =>
    rw [getD_some, qualify]
    by_cases starts : owner <+: path
    · have isGiven : path.startsWith owner := isPrefixOf_iff_prefix.mpr starts
      rw [if_pos starts, if_pos starts, if_pos isGiven]
      exact ⟨rfl, rfl, rfl⟩
    · have notGiven : ¬path.startsWith owner := mt isPrefixOf_iff_prefix.mp starts
      rw [if_neg starts, if_neg starts, if_neg notGiven]
      exact ⟨rfl, rfl, rfl⟩

/-- A full name has the class in front unless the path overlaps it. -/
theorem givesClass_fullName_iff (plain : '.' ∉ name) :
    GivesClass owner ((if owner <+: path then path else owner ++ ['.'] ++ path) ++ name) ↔
      ¬Overlaps owner path := by
  by_cases starts : owner <+: path
  · rw [if_pos starts]
    obtain ⟨rest, rfl⟩ := starts
    rw [Overlaps, and_iff_right (prefix_append owner rest), not_not, append_assoc,
      givesClass_append_iff, givesClass_append_iff]
    cases rest with
    | nil =>
      refine iff_of_false ?_ (by simp)
      intro dotted
      exact plain (mem_of_head? dotted)
    | cons c rest => rfl
  · rw [if_neg starts]
    exact iff_of_true ⟨path ++ name, by simp⟩ fun overlaps => starts overlaps.1

theorem fullName_eq_iff (owner path name : Text) :
    (if owner <+: path then path else owner ++ ['.'] ++ path) ++ name =
      fullNameWithin owner path name ↔ ¬Overlaps owner path := by
  rw [fullNameWithin]
  by_cases starts : owner <+: path
  · rw [if_pos starts, Overlaps, and_iff_right starts, not_not]
    by_cases given : GivesClass owner path
    · rw [if_pos given]
      exact iff_of_true rfl given
    · rw [if_neg given]
      refine iff_of_false ?_ given
      intro same
      have lengths := congrArg length same
      simp only [length_append, length_singleton] at lengths
      omega
  · rw [if_neg starts, if_neg (mt GivesClass.isPrefix starts)]
    exact iff_of_true rfl fun overlaps => starts overlaps.1

theorem pathWithin_dotted (owner rest : Text) : pathWithin owner (owner ++ '.' :: rest) = rest := by
  rw [pathWithin, if_pos ((givesClass_append_iff _).mpr rfl), append_cons]
  exact drop_left' (length_append.trans rfl)

/-- The path that is shown is the path without the class, unless it overlaps the class or more
dots follow. -/
theorem shownPath_eq_iff (notEmpty : owner ≠ []) (path : Text) :
    (if owner <+: path then (path.drop owner.length).dropWhile (· == '.') else path) =
      pathWithin owner path ↔ ¬Overlaps owner path ∧ ¬GivesClass (owner ++ ['.']) path := by
  by_cases starts : owner <+: path
  · rw [if_pos starts, Overlaps, and_iff_right starts, not_not]
    obtain ⟨rest, rfl⟩ := starts
    rw [drop_left]
    by_cases given : GivesClass owner (owner ++ rest)
    · obtain ⟨more, rfl⟩ := head?_eq_some_iff.mp ((givesClass_append_iff rest).mp given)
      rw [pathWithin_dotted, and_iff_right given, append_cons owner '.' more,
        givesClass_append_iff, dropWhile_cons_of_pos rfl, dropWhile_eq_self_iff_head?]
    · rw [pathWithin, if_neg given]
      refine iff_of_false ?_ fun both => given both.1
      intro same
      have shorter := Text.length_dropWhile_le (· == '.') rest
      have longer := length_pos_iff.mpr notEmpty
      rw [same, length_append] at shorter
      omega
  · have notGiven := mt GivesClass.isPrefix starts
    rw [if_neg starts, pathWithin, if_neg notGiven]
    refine iff_of_true rfl ⟨fun overlaps => starts overlaps.1, ?_⟩
    intro more
    exact notGiven more.isPrefix

/-- Inside of a class no module is shown in front of a name. -/
private theorem shownQualifier_within (settings : DisplaySettings) (owner : Text)
    (path? module : Option Text) :
    shownQualifier settings (some owner) path? module = path?.filter (· ≠ []) := by
  rcases path? with _ | _ | ⟨c, path⟩ <;> rfl

/-- Inside of a class each description is read with a full name.  It has the class in front and is
the path and the name, after the class unless the path gives it, except where the path overlaps
the class: there it is the path and the name alone.  The path is shown without the class, and
without the dots that follow. -/
theorem names_within_class (sort : DescriptionSort) (settings : DisplaySettings) (type owner : Text)
    (options : DescriptionOptions) (text : Text) (parts : SignatureParts) (notEmpty : owner ≠ [])
    (accepted : SignatureParts.ofDescription? text = some parts) :
    ∃ read, readSignature? sort settings.showSigns type (some owner) options text = some read ∧
      read.className = owner ∧
      read.parts = SignaturePart.leading sort type ++
        (read.path.filter (· ≠ [])).toList.map .qualifier ++
        .name parts.name :: SignaturePart.trailing sort type options.note parts ∧
      let path := parts.path.getD []
      let shown := read.path.getD []
      (GivesClass owner read.fullName ↔ ¬Overlaps owner path) ∧
      (read.fullName = fullNameWithin owner path parts.name ↔ ¬Overlaps owner path) ∧
      (shown = pathWithin owner path ↔
        ¬Overlaps owner path ∧ ¬GivesClass (owner ++ ['.']) path) ∧
      (GivesClass owner path → shown = (pathWithin owner path).dropWhile (· == '.')) ∧
      (Overlaps owner path → read.fullName = path ++ parts.name ∧ owner ++ shown = path) := by
  have scope : (some owner).filter (· ≠ []) = some owner := by simp [notEmpty]
  have plain := SignatureParts.dot_not_mem_of_ofDescription? accepted
  have read := readSignature?_of_accepted accepted sort settings.showSigns type (some owner) options
  obtain ⟨fullName, className, shown⟩ := qualify_within notEmpty parts.path parts.name
  simp only [scope, DisplaySettings.shown_showSigns, Option.map_id, id, shownQualifier_within]
    at read
  refine ⟨_, read, className, rfl, ?_⟩
  dsimp only
  rw [fullName, shown]
  refine ⟨givesClass_fullName_iff plain, fullName_eq_iff _ _ _, shownPath_eq_iff notEmpty _, ?_, ?_⟩
  · intro given
    rw [if_pos given.isPrefix]
    obtain ⟨more, whole⟩ := given
    rw [← whole, append_assoc, singleton_append, drop_left, pathWithin_dotted,
      dropWhile_cons_of_pos rfl]
  · rintro ⟨starts, notGiven⟩
    rw [if_pos starts, if_pos starts]
    obtain ⟨rest, whole⟩ := starts
    rw [← whole, givesClass_append_iff] at notGiven
    rw [← whole, drop_left]
    exact ⟨rfl, congrArg _ ((dropWhile_eq_self_iff_head? '.' rest).mpr notGiven)⟩

/-- A method of a class, with the class given again in the path. -/
def rimSignature : SignatureParts where
  path := some "@Disk.rim."
  name := "area"
  arguments := some "scale"
  returned := none

theorem names_within_class_rim :
    SignatureParts.ofDescription? "@Disk.rim.area(scale)" = some rimSignature ∧
    ∃ read, readSignature? .classMember (DisplaySettings.showSigns {}) "method" (some "@Disk")
        ⟨some "+geo", none⟩ "@Disk.rim.area(scale)" = some read ∧
      GivesClass "@Disk" read.fullName ∧ read.fullName = "@Disk.rim.area".toList ∧
      read.path.getD [] = "rim.".toList := by
  have accepted : SignatureParts.ofDescription? "@Disk.rim.area(scale)" = some rimSignature := by
    decide +kernel
  obtain ⟨read, isRead, -, -, given, fullName, shown, -⟩ := names_within_class .classMember {}
    "method" "@Disk" ⟨some "+geo", none⟩ _ rimSignature (by decide) accepted
  have apart : ¬Overlaps "@Disk" "@Disk.rim." := fun overlaps => overlaps.2 (by decide)
  exact ⟨accepted, read, isRead, given.mpr apart, fullName.mpr apart,
    shown.mpr ⟨apart, by decide⟩⟩

/-- A path that begins with a longer name is not qualified by the class. -/
theorem longer_name_not_qualified :
    ∃ read, readSignature? .classMember (DisplaySettings.showSigns {}) "attribute" (some "Disk")
        ⟨none, none⟩ "Diskette.label" = some read ∧
      read.fullName = "Diskette.label".toList ∧ ¬GivesClass "Disk" read.fullName ∧
      fullNameWithin "Disk" "Diskette." "label" = "Disk.Diskette.label".toList ∧
      read.path = some "ette.".toList ∧ pathWithin "Disk" "Diskette." = "Diskette.".toList :=
  ⟨_, rfl, rfl, by decide, by decide, rfl, by decide⟩

end MatlabDocs
