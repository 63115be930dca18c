import MatlabDocs.Text.Basic

/-!
# Tables

A table maps keys to values and keeps them in the order in which the keys were first put
in. Putting in a key again changes its value and leaves it in its place.
-/

namespace MatlabDocs

structure Table (κ α : Type) where
  entries : List (κ × α) := []
  deriving DecidableEq, Repr, Inhabited

abbrev NameTable (α : Type) := Table Text α

namespace Table

variable {κ α : Type} [DecidableEq κ]

def insertEntry (key : κ) (value : α) : List (κ × α) → List (κ × α)
  | [] => [(key, value)]
  | entry :: entries =>
    if entry.1 = key then (key, value) :: entries
    else entry :: insertEntry key value entries

def insert (table : Table κ α) (key : κ) (value : α) : Table κ α :=
  ⟨insertEntry key value table.entries⟩

def get? (table : Table κ α) (key : κ) : Option α :=
  table.entries.lookup key

def contains (table : Table κ α) (key : κ) : Bool :=
  (table.get? key).isSome

def keys (table : Table κ α) : List κ :=
  table.entries.map Prod.fst

def filter (table : Table κ α) (keep : κ → α → Bool) : Table κ α :=
  ⟨table.entries.filter fun (key, value) => keep key value⟩

def insertAll (table : Table κ α) (entries : List (κ × α)) : Table κ α :=
  entries.foldl (fun table (key, value) => table.insert key value) table

def ofList (entries : List (κ × α)) : Table κ α :=
  insertAll {} entries

end Table

end MatlabDocs
