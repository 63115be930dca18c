import MatlabDocs.Page.Name
import MatlabDocs.Proofs.Text.Pieces

/-!
# Names of members are read back

The entry of a member is asked for by its module, a double colon, and the dotted path of the
member.  Reading such a name gives the module and the path again, whatever the scope is.
-/

namespace MatlabDocs

open List SignatureParts EntryName

/-- A part of a path: word characters, which the sign of a package or of a class folder may
precede. -/
structure PathPart where
  sign : Text
  word : Text
  isSign : sign = [] ∨ sign = ['+'] ∨ sign = ['@']
  notEmpty : word ≠ []
  isWord_of_mem : ∀ c ∈ word, isWord c

structure ModuleName where
  text : Text
  notEmpty : text ≠ []
  isPathCharacter_of_mem : ∀ c ∈ text, isPathCharacter c

namespace PathPart

def text (part : PathPart) : Text :=
  part.sign ++ part.word

variable (part : PathPart)

theorem text_ne_nil : part.text ≠ [] :=
  append_ne_nil_of_right_ne_nil part.sign part.notEmpty

theorem isPathCharacter_of_mem : ∀ c ∈ part.text, isPathCharacter c := by
  refine forall_mem_append.mpr ⟨?_, ?_⟩
  · rcases part.isSign with unsigned | plus | atSign
    · simp [unsigned]
    · simp [plus, isPathCharacter]
    · simp [atSign, isPathCharacter]
  · intro c member
    simp [isPathCharacter, part.isWord_of_mem c member]

theorem dot_not_mem : '.' ∉ part.text := by
  intro member
  rcases mem_append.mp member with inSign | inWord
  · rcases part.isSign with unsigned | plus | atSign
    · simp [unsigned] at inSign
    · simp [plus] at inSign
    · simp [atSign] at inSign
  · exact ne_of_test (part.isWord_of_mem '.' inWord) (by decide) rfl

theorem isSimpleName_text : isSimpleName part.text := by
  have words : part.word.all isWord := all_eq_true.mpr part.isWord_of_mem
  obtain ⟨first, rest, shape⟩ := exists_cons_of_ne_nil part.notEmpty
  have word : isWord first := part.isWord_of_mem first (by simp [shape])
  have notPlus : first ≠ '+' := ne_of_test word (by decide)
  have notAt : first ≠ '@' := ne_of_test word (by decide)
  rcases part.isSign with unsigned | plus | atSign
  · rw [text, unsigned, shape, nil_append, isSimpleName, if_neg (by simp [notPlus, notAt]), ← shape]
    exact words
  · rw [text, plus, singleton_append, isSimpleName, if_pos (by decide)]
    simp [words, part.notEmpty]
  · rw [text, atSign, singleton_append, isSimpleName, if_pos (by decide)]
    simp [words, part.notEmpty]

end PathPart

def pathText (path : List PathPart) : Text :=
  path.flatMap fun part => part.text ++ "."

variable (path : List PathPart)

theorem dotted_eq (member : PathPart) :
    EntryName.dotted (path.map PathPart.text ++ [member.text]) = pathText path ++ member.text := by
  rw [EntryName.dotted, Text.joinWith_append_singleton, flatMap_map]
  rfl

theorem isPathCharacter_of_mem_pathText : ∀ c ∈ pathText path, isPathCharacter c := by
  intro c member
  obtain ⟨part, _, inPart⟩ := mem_flatMap.mp member
  rcases mem_append.mp inPart with inText | isDot
  · exact part.isPathCharacter_of_mem c inText
  · obtain rfl : c = '.' := by simpa using isDot
    decide

theorem pathText_cases :
    path = [] ∨ ∃ front last, path = front ++ [last] ∧
      pathText path = EntryName.dotted (path.map PathPart.text) ++ "." ∧
      EntryName.dotted (path.map PathPart.text) = pathText front ++ last.text := by
  rcases eq_nil_or_concat path with empty | ⟨front, last, shape⟩
  · exact .inl empty
  · rw [concat_eq_append] at shape
    have dotted : EntryName.dotted (path.map PathPart.text) = pathText front ++ last.text := by
      rw [shape, map_append, map_singleton, dotted_eq]
    refine .inr ⟨front, last, shape, ?_, dotted⟩
    rw [dotted, shape]
    simp [pathText]

theorem getLast?_pathText : ∀ c ∈ (pathText path).getLast?, c = '.' := by
  intro c isLast
  rcases pathText_cases path with rfl | ⟨_, _, _, ends, _⟩
  · simp [pathText] at isLast
  · rw [ends] at isLast
    obtain rfl : '.' = c := by simpa using isLast
    rfl

theorem two_le_length_pathText (notEmpty : path ≠ []) : 2 ≤ (pathText path).length := by
  obtain ⟨front, last, _, ends, dotted⟩ := (pathText_cases path).resolve_left notEmpty
  have notEmpty := length_pos_iff.mpr last.text_ne_nil
  rw [ends, dotted, length_append, length_append]
  have one : (("." : String) : Text).length = 1 := rfl
  omega

theorem pathText_eq_nil_iff : pathText path = [] ↔ path = [] := by
  constructor
  · intro noText
    rcases pathText_cases path with isEmpty | ⟨_, _, _, ends, _⟩
    · exact isEmpty
    · exact absurd (ends ▸ noText) (by simp)
  · rintro rfl
    rfl

namespace SignatureParts

private theorem splitPath_append {path : Text} (endsInDot : ∀ c ∈ path.getLast?, c = '.')
    (name : PathPart) :
    splitPath (path ++ name.text) = (if path = [] then none else some path, name.text) := by
  have behind : ∀ c ∈ name.text, (c != '.') = true := by
    intro c inName
    simpa using fun same : c = '.' => name.dot_not_mem (same ▸ inName)
  have kept : Text.trimRight (· != '.') path = path := by
    apply Text.trimRight_of_getLast?
    intro c isLast
    rw [endsInDot c isLast]
    rfl
  simp only [splitPath, Text.trimRight_append behind, kept, drop_left]

/-- A path is read up to its last dot, and a name up to the first sign that is no part of one. -/
theorem read?_append {least : Nat} {path rest : Text} (isPath : ∀ c ∈ path, isPathCharacter c)
    (endsInDot : ∀ c ∈ path.getLast?, c = '.') (long : path = [] ∨ least ≤ path.length)
    (name : PathPart) (stops : ∀ c ∈ rest.head?, isPathCharacter c = false)
    {arguments returned : Option Text} (read : tail? rest = some (arguments, returned)) :
    read? least (path ++ name.text ++ rest) =
      some { path := if path = [] then none else some path
             name := name.text
             arguments, returned } := by
  have all : ∀ c ∈ path ++ name.text, isPathCharacter c :=
    forall_mem_append.mpr ⟨isPath, name.isPathCharacter_of_mem⟩
  have longPath : (if path = [] then none else some path).all (least ≤ ·.length) = true := by
    rcases long with empty | long
    · simp [empty]
    · split
      · rfl
      · simpa using long
  rw [read?, takeWhile_append_of_head? all stops, drop_left, splitPath_append endsInDot]
  simp only [name.isSimpleName_text, longPath, Bool.and_self, if_true, read]
  rfl

variable (path : List PathPart) (member : PathPart)

private theorem read?_dotted :
    read? 2 (pathText path ++ member.text) =
      some { path := if path = [] then none else some (pathText path)
             name := member.text
             arguments := none
             returned := none } := by
  have long : pathText path = [] ∨ 2 ≤ (pathText path).length := by
    rw [pathText_eq_nil_iff]
    exact (Decidable.em _).imp_right (two_le_length_pathText path)
  have read := @read?_append 2 _ [] (isPathCharacter_of_mem_pathText path)
    (getLast?_pathText path) long member (by simp) none none rfl
  simpa only [append_nil, pathText_eq_nil_iff] using read

theorem ofGenerated?_ofMember (module : ModuleName) :
    ofGenerated? (ofMember module.text (path.map PathPart.text) member.text) =
      some { explicitModule := some module.text
             path := if path = [] then none else some (pathText path)
             name := member.text
             arguments := none
             returned := none } := by
  have shape : ofMember module.text (path.map PathPart.text) member.text =
      module.text ++ ':' :: ':' :: (pathText path ++ member.text) := by
    rw [ofMember, dotted_eq]
    simp
  have front : (module.text ++ ':' :: ':' :: (pathText path ++ member.text)).takeWhile
      isPathCharacter = module.text :=
    takeWhile_append_cons module.isPathCharacter_of_mem (by decide)
  rw [shape, ofGenerated?, front, drop_left]
  simp [if_neg module.notEmpty, read?_dotted]

end SignatureParts

namespace EntryName

variable (path : List PathPart) (member : PathPart)

private theorem splitOn_pathText (notEmpty : path ≠ []) :
    (Text.trimRight (· == '.') (pathText path)).splitOn '.' = path.map PathPart.text := by
  obtain ⟨front, last, _, ends, dotted⟩ := (pathText_cases path).resolve_left notEmpty
  have kept : Text.trimRight (· == '.') (EntryName.dotted (path.map PathPart.text)) =
      EntryName.dotted (path.map PathPart.text) := by
    apply Text.trimRight_of_getLast?
    intro c isLast
    rw [dotted, getLast?_append] at isLast
    rcases Option.or_eq_some_iff.mp isLast with inLast | ⟨noLast, _⟩
    · simpa using fun same : c = '.' => last.dot_not_mem (same ▸ mem_of_getLast? inLast)
    · exact absurd (getLast?_eq_none_iff.mp noLast) last.text_ne_nil
  rw [ends, Text.trimRight_append (by simp), kept]
  obtain ⟨first, others, shape⟩ := exists_cons_of_ne_nil notEmpty
  rw [shape]
  apply Text.splitOn_joinWith
  intro piece isPiece
  obtain ⟨part, _, rfl⟩ := mem_map.mp
    (show piece ∈ (first :: others).map PathPart.text from isPiece)
  exact part.dot_not_mem

theorem resolve_ofMember (module : ModuleName) {sort : EntrySort} (notModule : sort ≠ .module)
    (scope : PageScope) (directSearch : Bool) :
    resolve sort scope directSearch
        { explicitModule := some module.text
          path := if path = [] then none else some (pathText path)
          name := member.text
          arguments := none
          returned := none } =
      (some module.text, path.map PathPart.text ++ [member.text]) := by
  have present : present? (some module.text) = some module.text := by
    obtain ⟨first, rest, shape⟩ := exists_cons_of_ne_nil module.notEmpty
    rw [shape, present?]
    simp
  rw [resolve, if_neg notModule]
  by_cases empty : path = []
  · simp [resolveClassLevel, resolveModuleLevel, empty, present]
  · simp [resolveClassLevel, resolveModuleLevel, empty, present, splitOn_pathText path empty]

end EntryName

namespace Page

variable (settings : PageSettings) {sort : EntrySort} (notModule : sort ≠ .module)
  (state : PageState)
include notModule

theorem readName_of_valid {name : Text} {parts : SignatureParts}
    (valid : SignatureParts.ofGenerated? name = some parts) :
    readName settings sort name state =
      (.ok ((resolve sort state.scope settings.directSearch parts).1.map fun module =>
        let path := (resolve sort state.scope settings.directSearch parts).2
        { module, path, fullName := join module path, arguments := parts.arguments,
          returned := parts.returned }), state) := by
  have notBoth : ∀ given : Bool, (decide (sort = .module) && given) = false := by
    simp [notModule]
  have started : ∀ next : PageState → Writes (Option EntryName),
      ((get : Writes PageState) >>= next) state = next state state := fun _ => rfl
  rw [readName, valid]
  simp only [notBoth, Bool.false_eq_true, if_false]
  rw [started]
  rcases resolve sort state.scope settings.directSearch parts with ⟨_ | module, path⟩
  · rfl
  · rfl

theorem readName_ofMember (module : ModuleName) (path : List PathPart) (member : PathPart) :
    readName settings sort (ofMember module.text (path.map PathPart.text) member.text) state =
      (.ok (some
        { module := module.text
          path := path.map PathPart.text ++ [member.text]
          fullName := join module.text (path.map PathPart.text ++ [member.text])
          arguments := none
          returned := none }), state) := by
  rw [readName_of_valid settings notModule state (ofGenerated?_ofMember path member module),
    resolve_ofMember path member module notModule]
  rfl

end Page

/-- The name under which the entry of a member is asked for is accepted, and read as the module and
the path that it was made of, without arguments and a return value, whatever the scope is. -/
theorem member_names_read_back (module : ModuleName) (path : List PathPart) (member : PathPart)
    (settings : PageSettings) {sort : EntrySort} (notModule : sort ≠ .module) (state : PageState) :
    (SignatureParts.ofGenerated?
      (EntryName.ofMember module.text (path.map PathPart.text) member.text)).isSome ∧
    Page.readName settings sort
        (EntryName.ofMember module.text (path.map PathPart.text) member.text) state =
      (.ok (some
        { module := module.text
          path := path.map PathPart.text ++ [member.text]
          fullName := module.text ++ "." ++
            Text.joinWith "." (path.map PathPart.text ++ [member.text])
          arguments := none
          returned := none }), state) := by
  constructor
  · rw [SignatureParts.ofGenerated?_ofMember]
    rfl
  · rw [Page.readName_ofMember settings notModule state module path member, join,
      if_neg (by simp), EntryName.dotted]

/-- A method of a class in a class folder is asked for while other classes are around. -/
def crowdedState : PageState where
  catalog := { tree := {}, root := "src" }
  scope := { module := some "other", class? := some "other.C", describedModule := some "further",
             describedClass := some "further.D" }

theorem member_names_read_back_crowdedState :
    Page.readName { sourceFolder := "src" } .method
        (EntryName.ofMember "+pkg.@Tank" ["@Tank"] "fill_up") crowdedState =
      (.ok (some
        { module := "+pkg.@Tank"
          path := ["@Tank", "fill_up"]
          fullName := "+pkg.@Tank.@Tank.fill_up"
          arguments := none
          returned := none }), crowdedState) :=
  let folder : PathPart :=
    ⟨"@", "Tank", .inr (.inr rfl), by decide, List.all_eq_true.mp (by decide)⟩
  let member : PathPart := ⟨[], "fill_up", .inl rfl, by decide, List.all_eq_true.mp (by decide)⟩
  let package : ModuleName := ⟨"+pkg.@Tank", by decide, List.all_eq_true.mp (by decide)⟩
  have notModule : EntrySort.method ≠ .module := by decide
  (member_names_read_back package [folder] member { sourceFolder := "src" } notModule
    crowdedState).2

end MatlabDocs
