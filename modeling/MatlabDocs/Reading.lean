import MatlabDocs.Fault
import MatlabDocs.Notice

/-!
# Readings

The outcome of reading something: an answer or a fault, with the notices on the way.
-/

namespace MatlabDocs

structure Reading (α : Type) where
  result : Except Fault α
  notices : List Notice := []

namespace Reading

variable {α β : Type}

def map (change : α → β) (reading : Reading α) : Reading β :=
  ⟨reading.result.map change, reading.notices⟩

end Reading

end MatlabDocs
