import MatlabDocs.Text.Basic

/-!
# Parameter lists

The arguments of a signature are parameters separated by commas. Square brackets around
parameters mark them as optional, and such groups may be nested. If the brackets do not
match, the whole list is taken for one parameter.
-/

namespace MatlabDocs

inductive Parameter where
  | plain (text : Text)
  | optional (group : List Parameter)

namespace Parameter

def dropLeading (bracket : Char) : Text → Nat × Text
  | [] => (0, [])
  | c :: rest =>
    if c = bracket then
      let (count, inner) := dropLeading bracket (Text.strip rest)
      (count + 1, inner)
    else (0, c :: rest)
termination_by piece => piece.length
decreasing_by exact Nat.lt_succ_of_le (Text.length_strip_le rest)

def dropTrailing (bracket : Char) (piece : Text) : Nat × Text :=
  let (count, inner) := dropLeading bracket piece.reverse
  (count, inner.reverse)

/-- A piece between commas: the brackets around a text, which may be empty. -/
structure Piece where
  opened : Nat
  closed : Nat
  text : Text
  openedAfter : Nat
  closedAfter : Nat
  deriving DecidableEq, Repr

def Piece.ofText (piece : Text) : Piece :=
  let (opened, afterOpened) := dropLeading '[' piece.strip
  let (closed, afterClosed) := dropLeading ']' afterOpened
  let (closedAfter, beforeClosed) := dropTrailing ']' afterClosed
  let (openedAfter, text) := dropTrailing '[' beforeClosed
  { opened, closed, text, openedAfter, closedAfter }

/-- The groups that are open, the innermost first, with what has been put in each. The list
itself is the outermost, and is never closed. -/
structure Groups where
  inner : List Parameter := []
  outer : List (List Parameter) := []

namespace Groups

def openGroup (groups : Groups) : Groups :=
  ⟨[], groups.inner :: groups.outer⟩

def closeGroup (groups : Groups) : Option Groups :=
  match groups.outer with
  | [] => none
  | parent :: rest => some ⟨parent ++ [.optional groups.inner], rest⟩

def openGroups : Nat → Groups → Groups
  | 0, groups => groups
  | count + 1, groups => openGroups count groups.openGroup

def closeGroups : Nat → Groups → Option Groups
  | 0, groups => some groups
  | count + 1, groups => groups.closeGroup.bind (closeGroups count)

def addText (groups : Groups) (text : Text) : Groups :=
  if text = [] then groups else { groups with inner := groups.inner ++ [.plain text] }

def addPiece (groups : Groups) (piece : Piece) : Option Groups := do
  let started ← closeGroups piece.closed (openGroups piece.opened groups)
  closeGroups piece.closedAfter (openGroups piece.openedAfter (started.addText piece.text))

end Groups

def parseList (arguments : Text) : List Parameter :=
  let pieces := (arguments.splitOn ',').map Piece.ofText
  match pieces.foldlM Groups.addPiece {} with
  | some ⟨parameters, []⟩ => parameters
  | _ => [.plain arguments]

end Parameter

end MatlabDocs
