import MatlabDocs.Definition.Class.Basic
import MatlabDocs.Fault

/-!
# The state of reading a class

A class is read from left to right. The state holds the tokens that are left and what has
been found so far; a halt holds the state in which the reading stopped.
-/

namespace MatlabDocs

inductive ReadingLoop where
  | blocks
  | bases
  | docstring
  | attributes
  | items
  | declarations
  | propertyComment
  | defaultValue
  | methods
  deriving DecidableEq, Repr

inductive HaltCause where
  | exhausted
  | expectedProperty
  /-- A loop came back without having read a token. -/
  | stuck (loop : ReadingLoop)
  | fault (fault : Fault)
  deriving DecidableEq, Repr

structure ClassState where
  position : Nat
  rest : List Token
  definition : ClassDef
  notices : List Notice := []
  deriving DecidableEq, Repr

structure Halt where
  cause : HaltCause
  state : ClassState
  deriving DecidableEq, Repr

abbrev Reads (α : Type) := Except Halt α

/-- The number of tokens before the first that fails the test, if there is one. -/
def countWhile? (test : Token → Bool) (tokens : List Token) : Option Nat :=
  let count := (tokens.takeWhile test).length
  if count < tokens.length then some count else none

namespace ClassState

def halt {α : Type} (state : ClassState) (cause : HaltCause) : Reads α :=
  .error ⟨cause, state⟩

def advance (state : ClassState) (count : Nat) : ClassState :=
  { state with position := state.position + count, rest := state.rest.drop count }

def notify (state : ClassState) (notice : Notice) : ClassState :=
  { state with notices := state.notices ++ [notice] }

def modify (state : ClassState) (change : ClassDef → ClassDef) : ClassState :=
  { state with definition := change state.definition }

def peek (state : ClassState) : Reads Token :=
  match state.rest with
  | [] => state.halt .exhausted
  | token :: _ => .ok token

def count (state : ClassState) (test : Token → Bool) : Reads Nat :=
  match countWhile? test state.rest with
  | some count => .ok count
  | none => state.halt .exhausted

def skip (state : ClassState) (test : Token → Bool) : Reads ClassState :=
  return state.advance (← state.count test)

/-- Passes the tokens that satisfy the test one by one, so that the state is at the end of the
tokens when they run out. -/
def pass (state : ClassState) (test : Token → Bool) : Reads ClassState :=
  let after := state.advance (state.rest.takeWhile test).length
  if after.rest.isEmpty then after.halt .exhausted else .ok after

def isSpacing (token : Token) : Bool :=
  (token.kind == .text || token.kind == .whitespace) &&
    (token.value == " " || token.value == "\n" || token.value == "\t")

def skipIndent (state : ClassState) : Reads ClassState :=
  state.skip Token.isIndent

def skipSpacing (state : ClassState) : Reads ClassState :=
  state.skip isSpacing

/-- Skips white space and comments. If nothing else follows, the reading stops after the last
of the comments. -/
def skipCommentary (state : ClassState) : Reads ClassState :=
  let commentary := state.rest.takeWhile fun token => isSpacing token || token.isComment
  if commentary.length < state.rest.length then .ok (state.advance commentary.length)
  else
    let settled := (commentary.reverse.dropWhile isSpacing).length
    (state.advance settled).halt .exhausted

/-- Goes on only if tokens have been read since; otherwise the reading would repeat itself
for ever. -/
def progressing {α : Type} (loop : ReadingLoop) (start state : ClassState)
    (next : state.rest.length < start.rest.length → Reads α) : Reads α :=
  if shorter : state.rest.length < start.rest.length then next shorter
  else state.halt (.stuck loop)

end ClassState

end MatlabDocs
