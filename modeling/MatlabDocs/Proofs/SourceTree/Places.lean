import MatlabDocs.Proofs.Reference.PackageSigns
import MatlabDocs.Proofs.Table
import MatlabDocs.SourceTree.Basic

/-!
# Places of folders and files

A name put behind the path of a folder leads to the place of the folder with that name added
to it, whether or not the path ends in a slash.  The path that a dotted name stands for is cut
at its last dot.
-/

namespace MatlabDocs

open List Text

namespace Path

/-- A name that a folder or a file may have. -/
structure IsName (name : Text) : Prop where
  ne_nil : name ≠ []
  plain : '/' ∉ name
  ne_dot : name ≠ ".".toList
  ne_dots : name ≠ "..".toList

variable {path name : Text} {workingFolder place : List Text}

theorem IsName.startsWith (isName : IsName name) (rest : Text) :
    Text.startsWith (name ++ rest) "/" = false := by
  obtain ⟨c, more, rfl⟩ := exists_cons_of_ne_nil isName.ne_nil
  have different : '/' ≠ c := fun same => isName.plain (same ▸ mem_cons_self)
  simpa [startsWith, List.isPrefixOf] using different

theorem steps_append_name (isName : IsName name) (start names : List Text) :
    steps start (names ++ [name]) = steps start names ++ [name] := by
  have notDot : ¬(name = [] || name == ".".toList) := by
    simpa using And.intro isName.ne_nil isName.ne_dot
  have notDots : ¬(name == "..".toList) := by
    simpa using isName.ne_dots
  rw [steps, foldl_append, foldl_cons, foldl_nil, if_neg notDot, if_neg notDots, ← steps]

/-- An empty name on the way is passed over. -/
theorem steps_append_nil_cons (start names others : List Text) :
    steps start (names ++ [] :: others) = steps start (names ++ others) := by
  rw [steps, steps, foldl_append, foldl_cons, foldl_append]
  rfl

theorem startsWith_append {text : Text} (notEmpty : text ≠ []) (rest : Text) :
    Text.startsWith (text ++ rest) "/" = text.startsWith "/" := by
  obtain ⟨c, more, rfl⟩ := exists_cons_of_ne_nil notEmpty
  simp [startsWith, List.isPrefixOf]

/-- The path is taken from where it starts, name by name. -/
theorem place?_slash (workingFolder : List Text) (front rest : Text) :
    place? workingFolder (front ++ '/' :: rest) =
      some (steps (if Text.startsWith (front ++ ['/']) "/" then [] else workingFolder)
        (front.splitOn '/' ++ rest.splitOn '/')) := by
  have start : startsWith (front ++ '/' :: rest) "/" =
      startsWith (front ++ ['/']) "/" := by
    rw [← startsWith_append (append_ne_nil_of_right_ne_nil front (cons_ne_nil '/' [])) rest,
      append_assoc, singleton_append]
  rw [place?, if_neg (by simp), start, splitOn_append_separator]

theorem place?_doubled (workingFolder : List Text) (front rest : Text) :
    place? workingFolder (front ++ '/' :: '/' :: rest) =
      place? workingFolder (front ++ '/' :: rest) := by
  have doubled : Text.splitOn '/' ('/' :: rest) = [] :: rest.splitOn '/' :=
    splitOn_append_separator '/' [] rest
  rw [place?_slash, place?_slash, doubled, steps_append_nil_cons]

theorem place?_append (placed : place? workingFolder path = some place) (isName : IsName name) :
    place? workingFolder (path ++ '/' :: name) = some (place ++ [name]) := by
  rw [place?] at placed
  split at placed
  · cases placed
  · rename_i notEmpty
    rw [place?_slash, startsWith_append notEmpty, splitOn_of_not_mem isName.plain,
      steps_append_name isName, Option.some.inj placed]

theorem place?_join (placed : place? workingFolder path = some place) (isName : IsName name) :
    place? workingFolder (join path name) = some (place ++ [name]) := by
  have relativeName : startsWith name "/" = false := by
    simpa using isName.startsWith []
  have notEmpty : path ≠ [] := by
    rintro rfl
    cases placed
  rw [join, if_neg (Bool.eq_false_iff.mp relativeName)]
  by_cases slash : path.endsWith "/"
  · obtain ⟨front, rfl⟩ : ∃ front, front ++ ['/'] = path := isSuffixOf_iff_suffix.mp slash
    rw [place?_slash, Text.splitOn, steps_append_nil_cons, append_nil] at placed
    rw [if_pos (by rw [slash, Bool.or_true]), append_assoc, singleton_append, place?_slash,
      splitOn_of_not_mem isName.plain, steps_append_name isName, Option.some.inj placed]
  · rw [if_neg (by simpa [notEmpty] using slash), append_assoc]
    exact place?_append placed isName

theorem join_append {text : Text} (notEmpty : text ≠ []) (root rest : Text) :
    join root (text ++ rest) = join root text ++ rest := by
  rw [join, startsWith_append notEmpty, join]
  split
  · rfl
  · split
    · rw [append_assoc]
    · rw [append_assoc, append_assoc, append_assoc]

theorem ofDotted_append (front rest : Text) :
    ofDotted (front ++ "." ++ rest) = ofDotted front ++ '/' :: ofDotted rest := by
  simp [ofDotted]

theorem ofDotted_of_not_mem (plain : '.' ∉ name) : ofDotted name = name := by
  rw [ofDotted]
  conv_rhs => rw [← map_id name]
  apply map_congr_left
  intro c member
  have different : c ≠ '.' := fun same => plain (same ▸ member)
  simp [different]

theorem split_append (front : Text) (plain : '/' ∉ name) :
    (split (front ++ '/' :: name)).2 = name ∧
      (split (front ++ '/' :: name)).1 = (split (front ++ ['/'])).1 := by
  have cut : ∀ name : Text, '/' ∉ name →
      trimRight (· != '/') (front ++ '/' :: name) = front ++ ['/'] := by
    intro name plain
    have regrouped : front ++ '/' :: name = (front ++ ['/']) ++ name := by simp
    rw [regrouped, trimRight_append]
    · exact trimRight_of_getLast? (by simp)
    · intro c member
      have different : c ≠ '/' := fun same => plain (same ▸ member)
      simpa using different
  have cutSlash := cut [] not_mem_nil
  constructor
  · rw [split, cut name plain]
    simp
  · rw [split, cut name plain, split, cutSlash]

theorem splitLast?_append {front last : Text} {separator : Char} (plain : separator ∉ last) :
    Text.splitLast? separator (front ++ separator :: last) = some (front, last) := by
  have others : ∀ c ∈ last.reverse, (c != separator) = true := by
    intro c member
    have different : c ≠ separator := fun same => plain (same ▸ mem_reverse.mp member)
    simpa using different
  have cut : (last.reverse ++ separator :: front.reverse).takeWhile (· != separator) =
      last.reverse := takeWhile_append_cons others (by simp)
  have behind : (last.reverse ++ separator :: front.reverse).drop (last.length + 1) =
      front.reverse := by
    rw [← length_reverse, drop_length_add_append, drop_one, tail_cons]
  simp [splitLast?, cut, behind]

theorem stem_append {extension : Text} (notEmpty : name ≠ []) (plain : '.' ∉ name)
    (plainExtension : '.' ∉ extension) : stem (name ++ '.' :: extension) = name := by
  obtain ⟨c, rest, rfl⟩ := exists_cons_of_ne_nil notEmpty
  have notDot : (c == '.') = false := by
    simpa using fun same : c = '.' => plain (same ▸ mem_cons_self)
  have noDots : (c :: rest ++ '.' :: extension).takeWhile (· == '.') = [] := by
    simp [notDot]
  rw [stem, noDots, length_nil, drop_zero, splitLast?_append plainExtension]
  rfl

end Path

namespace SourceTree

variable {tree : SourceTree} {path name : Text} {place : List Text}

theorem file?_of_place? (placed : tree.place? path = some place) :
    tree.file? path = tree.files.get? place := by
  rw [file?, placed, Option.bind_some]

theorem exists_place? (isFolder : tree.isFolder path) : ∃ place, tree.place? path = some place := by
  rw [SourceTree.isFolder] at isFolder
  cases placed : tree.place? path with
  | none =>
    rw [placed] at isFolder
    cases isFolder
  | some place => exact ⟨place, rfl⟩

private theorem mem_namesIn_append (place : List Text) (name : Text) {places : List (List Text)}
    (member : place ++ [name] ∈ places) : name ∈ namesIn place places := by
  apply (mergeSort_perm _ _).mem_iff.mpr
  refine mem_filterMap.mpr ⟨place ++ [name], member, ?_⟩
  simp

theorem mem_list_of_file? {file : SourceFile} (placed : tree.place? path = some place)
    (isName : Path.IsName name) (isFile : tree.file? (Path.join path name) = some file) :
    name ∈ tree.list path := by
  rw [file?_of_place? (Path.place?_join placed isName)] at isFile
  apply (mergeSort_perm _ _).mem_iff.mpr
  apply mem_append_right
  rw [filesIn, placed]
  exact mem_namesIn_append place name (mem_map_of_mem (Table.mem_of_get? isFile))

end SourceTree

end MatlabDocs
