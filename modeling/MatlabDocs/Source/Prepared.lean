import MatlabDocs.Source.Continuation
import MatlabDocs.Source.Header
import MatlabDocs.Source.Signature

/-!
# Prepared code

Code as it is handed to the token rules: without its comment header, with continued lines
joined, and with parentheses in every signature that has outputs.
-/

namespace MatlabDocs

def prepareCode (code : Text) : Text :=
  addParentheses (joinContinuedLines (dropHeader code))

end MatlabDocs
