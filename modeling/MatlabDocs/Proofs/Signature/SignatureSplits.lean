import MatlabDocs.Proofs.Page.MemberNames
import MatlabDocs.Proofs.Token.SignatureTokens

/-!
# How signatures of descriptions are split

The path of a signature ends with the last dot in front of its name, and its arguments end with the
last parenthesis that closes.  So a signature is split as it was put together, whatever stands in
its arguments: dots, parentheses and arrows among them.
-/

namespace MatlabDocs

open List hiding tail?
open SignatureParts

theorem SignatureParts.lineLength_of_not_mem {text : Text} (oneLine : '\n' ∉ text) :
    lineLength text = text.length := by
  have inLine : ∀ c ∈ text, (c != '\n') = true := by
    intro c member
    simpa using fun same : c = '\n' => oneLine (same ▸ member)
  have whole := @takeWhile_append_of_head? _ _ text [] inLine (by simp)
  rw [append_nil] at whole
  rw [lineLength, whole]

/-- The arguments go up to the last parenthesis, if what follows it can be read. -/
theorem SignatureParts.call?_append {arguments after : Text}
    (oneLine : '\n' ∉ arguments ++ ')' :: after) (unclosed : ')' ∉ after)
    (ends : returned? after = none → after = []) :
    call? (arguments ++ ')' :: after) = some (arguments, returned? after) := by
  have shape : arguments ++ ')' :: after = (arguments ++ [')']) ++ after := by simp
  have length : (arguments ++ [')']).length = arguments.length + 1 := by simp
  refine greatest?_eq_some arguments.length ?_ ?_ ?_
  · rw [lineLength_of_not_mem oneLine, length_append]
    exact Nat.le_add_right _ _
  · have behind : (arguments ++ ')' :: after).drop (arguments.length + 1) = after := by
      rw [shape, ← length, drop_left]
    rw [if_pos (by simp), behind, take_left]
    cases read : returned? after with
    | none =>
      rw [ends read]
      rfl
    | some returned =>
      simp only [read]
      rfl
  · intro other further _
    rw [if_neg]
    intro isClosing
    rw [shape, getElem?_append_right (by omega)] at isClosing
    exact unclosed (mem_of_getElem? isClosing)

/-- The parts that the signature of a description may be put together from. -/
structure DescribedSignature where
  path : Text
  isPathCharacter_of_mem : ∀ c ∈ path, isPathCharacter c
  endsInDot : ∀ c ∈ path.getLast?, c = '.'
  name : PathPart
  arguments : Text
  argumentsInLine : '\n' ∉ arguments
  returned : Text
  returned_ne_nil : returned ≠ []
  returnedInLine : '\n' ∉ returned
  unclosed : ')' ∉ returned
  visible : ∀ c ∈ returned.head?, isBlank c = false

namespace DescribedSignature

variable (signature : DescribedSignature)

def named : Text :=
  signature.path ++ signature.name.text

def called : Text :=
  signature.named ++ '(' :: (signature.arguments ++ [')'])

def annotated : Text :=
  signature.called ++ (" -> " ++ signature.returned)

def parts (arguments returned : Option Text) : SignatureParts where
  path := if signature.path = [] then none else some signature.path
  name := signature.name.text
  arguments
  returned

theorem returned?_arrow : returned? (" -> " ++ signature.returned) = some signature.returned := by
  have arrow : ((" -> " : Text) ++ signature.returned).dropWhile isBlank =
      '-' :: '>' :: ([' '] ++ signature.returned) :=
    rfl
  have kept : ([' '] ++ signature.returned).dropWhile isBlank = signature.returned :=
    dropWhile_append_of_head? (all_eq_true.mp (by decide)) signature.visible
  rw [returned?, arrow]
  simp only [kept, lineLength_of_not_mem signature.returnedInLine, drop_length, take_length]
  rfl

theorem ofDescription?_named {rest : Text} (stops : ∀ c ∈ rest.head?, isPathCharacter c = false)
    {arguments returned : Option Text} (read : tail? rest = some (arguments, returned)) :
    ofDescription? (signature.named ++ rest) = some (signature.parts arguments returned) := by
  refine read?_append signature.isPathCharacter_of_mem signature.endsInDot ?_ signature.name stops
    read
  rw [Nat.one_le_iff_ne_zero, Ne, length_eq_zero_iff]
  exact Decidable.em _

theorem ofDescription?_called {after : Text} (oneLine : '\n' ∉ after) (unclosed : ')' ∉ after)
    (ends : returned? after = none → after = []) :
    ofDescription? (signature.called ++ after) =
      some (signature.parts (some signature.arguments) (returned? after)) := by
  have inLine : '\n' ∉ signature.arguments ++ ')' :: after := by
    simp [signature.argumentsInLine, oneLine]
  have read : tail? ('(' :: (signature.arguments ++ ')' :: after)) =
      some (some signature.arguments, returned? after) := by
    show (call? _).map _ = _
    rw [call?_append inLine unclosed ends]
    rfl
  have shape : signature.called ++ after =
      signature.named ++ '(' :: (signature.arguments ++ ')' :: after) := by
    simp [called]
  rw [shape]
  exact signature.ofDescription?_named (by simp; decide) read

/-- A signature is split into the path, the name, the arguments and the return value that it was
put together from. -/
theorem described_signatures_split :
    ofDescription? signature.named = some (signature.parts none none) ∧
    ofDescription? signature.called = some (signature.parts (some signature.arguments) none) ∧
    ofDescription? signature.annotated =
      some (signature.parts (some signature.arguments) (some signature.returned)) := by
  refine ⟨?_, ?_, ?_⟩
  · have read := @ofDescription?_named signature [] (by simp) none none rfl
    rwa [append_nil] at read
  · have read := @ofDescription?_called signature [] (by simp) (by simp) fun _ => rfl
    rwa [append_nil] at read
  · have oneLine : '\n' ∉ " -> " ++ signature.returned := by simp [signature.returnedInLine]
    have unclosed : ')' ∉ " -> " ++ signature.returned := by simp [signature.unclosed]
    have read := signature.ofDescription?_called oneLine unclosed
    rw [signature.returned?_arrow] at read
    exact read nofun

/-- Arguments in which a signature with a return value stands. -/
def nested : DescribedSignature where
  path := "+geo.@Disk."
  isPathCharacter_of_mem := all_eq_true.mp (by decide)
  endsInDot := by simp
  name := ⟨[], "area", .inl rfl, by decide, all_eq_true.mp (by decide)⟩
  arguments := "f.g(x) -> y, (z"
  argumentsInLine := by decide
  returned := "-> (w"
  returned_ne_nil := by decide
  returnedInLine := by decide
  unclosed := by decide
  visible := by
    rintro c ⟨⟩
    rfl

theorem described_signatures_split_nested :
    ofDescription? "+geo.@Disk.area(f.g(x) -> y, (z) -> -> (w" =
      some { path := some "+geo.@Disk."
             name := "area"
             arguments := some "f.g(x) -> y, (z"
             returned := some "-> (w" } :=
  nested.described_signatures_split.2.2

end DescribedSignature

end MatlabDocs
