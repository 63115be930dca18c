import MatlabDocs.Definition.Basic
import MatlabDocs.Text.Encoding

/-!
# Source files

A source file is a list of bytes in some encoding, with any kind of line ends.
-/

namespace MatlabDocs.Definition

/-- The encoding that is meant by a name; files are in UTF-8 unless another one is named. -/
def encodingOf? : Option Text → Option Encoding
  | none => some .utf8
  | some name => Encoding.ofName? name

def ofBytes (name path : Text) (encoding : Option Text) (bytes : List UInt8) :
    Reading Definition :=
  match encodingOf? encoding with
  | none => ⟨.error .unknownEncoding, []⟩
  | some encoding => ofCode name (moduleOfPath path) (unixNewlines (encoding.decode bytes))

end MatlabDocs.Definition
