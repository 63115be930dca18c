import MatlabDocs.Text.Blank

/-!
# Text

Text is a list of characters, and a string literal may stand for its characters.
The operations here cut text into pieces, put pieces together, and take characters
off its ends.
-/

namespace MatlabDocs

abbrev Text := List Char

instance : Coe String Text := ⟨String.toList⟩

namespace Text

def trimRight (drop : Char → Bool) (text : Text) : Text :=
  (text.reverse.dropWhile drop).reverse

def trim (drop : Char → Bool) (text : Text) : Text :=
  trimRight drop (text.dropWhile drop)

def strip (text : Text) : Text :=
  trim isBlank text

theorem length_dropWhile_le (drop : Char → Bool) (text : Text) :
    (text.dropWhile drop).length ≤ text.length :=
  (List.dropWhile_suffix drop).length_le

theorem length_trimRight_le (drop : Char → Bool) (text : Text) :
    (trimRight drop text).length ≤ text.length := by
  simpa [trimRight] using length_dropWhile_le drop text.reverse

theorem length_strip_le (text : Text) : text.strip.length ≤ text.length :=
  Nat.le_trans (length_trimRight_le isBlank _) (length_dropWhile_le isBlank text)

/-- The pieces between the separators; there is always at least one. -/
def splitOn (separator : Char) : Text → List Text
  | [] => [[]]
  | c :: rest =>
    if c = separator then [] :: splitOn separator rest
    else
      match splitOn separator rest with
      | [] => [[c]]
      | piece :: pieces => (c :: piece) :: pieces

def joinWith (separator : Text) (pieces : List Text) : Text :=
  separator.intercalate pieces

def startsWith (text start : Text) : Bool :=
  start.isPrefixOf text

def endsWith (text ending : Text) : Bool :=
  ending.isSuffixOf text

def afterStart? (start text : Text) : Option Text :=
  if start.isPrefixOf text then some (text.drop start.length) else none

def splitLast? (separator : Char) (text : Text) : Option (Text × Text) :=
  if text.contains separator then
    let reversed := text.reverse
    let last := reversed.takeWhile (· != separator)
    some (((reversed.drop (last.length + 1))).reverse, last.reverse)
  else none

/-- Copies the text from left to right, with `replacement` for each occurrence of `old`;
`skipped` characters of an occurrence are still to be passed over. -/
def replaceFrom (old replacement : Text) : Nat → Text → Text
  | _, [] => []
  | skipped + 1, _ :: rest => replaceFrom old replacement skipped rest
  | 0, c :: rest =>
    if old.isPrefixOf (c :: rest) then
      replacement ++ replaceFrom old replacement (old.length - 1) rest
    else c :: replaceFrom old replacement 0 rest

/-- Replaces the occurrences of a non-empty text, which do not overlap. -/
def replace (old replacement text : Text) : Text :=
  replaceFrom old replacement 0 text

/-- Everything after the first `count` separators, when there are as many. -/
def afterSeparators? (separator : Char) : Nat → Text → Option Text
  | 0, text => some text
  | _ + 1, [] => none
  | count + 1, c :: rest =>
    if c = separator then afterSeparators? separator count rest
    else afterSeparators? separator (count + 1) rest

def ofNat (n : Nat) : Text :=
  Nat.toDigits 10 n

def ofInt (n : Int) : Text :=
  if n < 0 then '-' :: ofNat n.natAbs else ofNat n.natAbs

end Text

end MatlabDocs
