import MatlabDocs.Text.Basic
import MatlabDocs.Text.Printable

/-!
# Quoted text

Text written between quotes, as it stands in messages. Single quotes are taken unless
the text holds one and no double quote. The backslash, the quote, the usual controls and
the characters that cannot be printed are escaped.
-/

namespace MatlabDocs.Text

/-- The number in base 16, with zeros in front up to the width. -/
def hexPadded (width n : Nat) : Text :=
  let digits := Nat.toDigits 16 n
  List.replicate (width - digits.length) '0' ++ digits

def quoteEscape (quote c : Char) : Text :=
  if c = quote || c = '\\' then ['\\', c]
  else if c = '\n' then ['\\', 'n']
  else if c = '\r' then ['\\', 'r']
  else if c = '\t' then ['\\', 't']
  else if isPrintable c then [c]
  else if c.toNat < 0x100 then ['\\', 'x'] ++ hexPadded 2 c.toNat
  else if c.toNat < 0x10000 then ['\\', 'u'] ++ hexPadded 4 c.toNat
  else ['\\', 'U'] ++ hexPadded 8 c.toNat

def quoteFor (text : Text) : Char :=
  if text.contains '\'' && !text.contains '"' then '"' else '\''

def quoted (text : Text) : Text :=
  let quote := quoteFor text
  quote :: text.flatMap (quoteEscape quote) ++ [quote]

end MatlabDocs.Text
