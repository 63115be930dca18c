import MatlabDocs.Text.Basic
import MatlabDocs.Text.Word

/-!
# Function heads

What follows the keyword of a function: outputs with an equals sign, the name, and the
arguments in parentheses. A head is found by the lengths of its parts. Each part takes as
many characters as the parts after it allow, and the earlier part decides first.
-/

namespace MatlabDocs

/-- The result for the greatest number up to the bound that has one. -/
def greatest? {α : Type} (result? : Nat → Option α) : Nat → Option α
  | 0 => result? 0
  | bound + 1 => (result? (bound + 1)).or (greatest? result? bound)

def blankLength (text : Text) : Nat :=
  (text.takeWhile isBlank).length

def lineLength (text : Text) : Nat :=
  (text.takeWhile (· != '\n')).length

structure CallLengths where
  name : Nat
  arguments : Nat
  deriving DecidableEq, Repr

/-- The name and the arguments of a call at the start of the text: the arguments end at the
last closing parenthesis of the line, and the name at the last opening one before it. -/
def callLengths? (text : Text) : Option CallLengths :=
  let head := text.take (lineLength text)
  greatest? (fun name =>
    if name ≠ 0 ∧ head[name]? = some '(' then
      greatest? (fun arguments =>
        if head[name + 1 + arguments]? = some ')' then some ⟨name, arguments⟩ else none)
        (head.length - (name + 1))
    else none) head.length

/-- The outputs with the blanks around the equals sign after them. -/
structure OutputLengths where
  outputs : Nat
  beforeEquals : Nat
  afterEquals : Nat
  deriving DecidableEq, Repr

structure HeadLengths where
  blanks : Nat
  outputs : Option OutputLengths
  call : CallLengths
  deriving DecidableEq, Repr

def spacedCallLengths? (text : Text) : Option (Nat × CallLengths) :=
  greatest? (fun blanks => (callLengths? (text.drop blanks)).map (blanks, ·)) (blankLength text)

def assignedCallLengths? (text : Text) : Option (OutputLengths × CallLengths) :=
  greatest? (fun outputs =>
    if outputs = 0 then none
    else
      let afterOutputs := text.drop outputs
      let beforeEquals := blankLength afterOutputs
      match afterOutputs.drop beforeEquals with
      | '=' :: rest =>
        (spacedCallLengths? rest).map fun (afterEquals, call) =>
          (⟨outputs, beforeEquals, afterEquals⟩, call)
      | _ => none) (lineLength text)

def headLengths? (text : Text) : Option HeadLengths :=
  greatest? (fun blanks =>
    let rest := text.drop blanks
    ((assignedCallLengths? rest).map fun (outputs, call) => ⟨blanks, some outputs, call⟩).or
      ((callLengths? rest).map fun call => ⟨blanks, none, call⟩)) (blankLength text)

end MatlabDocs
