import MatlabDocs.Text.Basic

/-!
# Fields in docstrings

A docstring may hold fields, such as `:param x: the value`. A field whose name starts with
`meta` is not for readers but tells how the docstring is to be used.
-/

namespace MatlabDocs.Metadata

/-- What stands between the colons of a field, from after the first colon on; `last` is the
character before. The second colon ends the line or has a blank behind it. -/
def fieldBody? (last : Char) : Text → Option Text
  | [] => none
  | [c] => if c = ':' && last ≠ ' ' then some [] else none
  | c :: next :: rest =>
    if c = ':' && next = ' ' then if last = ' ' then none else some []
    else if c = ':' && next = '\x60' then none
    else if c = '\\' then (fieldBody? next rest).map (c :: next :: ·)
    else (fieldBody? c (next :: rest)).map (c :: ·)

def fieldName? : Text → Option Text
  | ':' :: c :: rest =>
    if c = ':' || c = ' ' then none
    else (fieldBody? ':' (c :: rest)).map (·.takeWhile (· != ':'))
  | _ => none

def isMeta (name field : Text) : Bool :=
  match Text.afterStart? "meta " field with
  | some rest => rest.strip == name
  | none => false

/-- Whether the lines hold a piece of metadata. Fields are looked for at the start of a block of
lines only. -/
def isGiven (name : Text) (inBlock : Bool) : List Text → Bool
  | [] => false
  | line :: lines =>
    if line.all isBlank then isGiven name false lines
    else
      match fieldName? line, inBlock with
      | some field, false => isMeta name field || isGiven name false lines
      | _, _ => isGiven name true lines

end MatlabDocs.Metadata
