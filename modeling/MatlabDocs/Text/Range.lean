/-!
# Ranges of characters

A class of characters is given as an increasing list of ranges of code points.
-/

namespace MatlabDocs

def inRanges (ranges : List (Nat × Nat)) (c : Char) : Bool :=
  ranges.any fun (first, last) => first ≤ c.toNat && c.toNat ≤ last

/--
The ranges of a class that is given by its runs of characters from a code point on.  A run is
written as the number of characters left out in front of it, followed by its length.
-/
def rangesOfRuns (start : Nat) : List Nat → List (Nat × Nat)
  | gap :: length :: runs =>
    (start + gap, start + gap + length - 1) :: rangesOfRuns (start + gap + length) runs
  | _ => []

end MatlabDocs
