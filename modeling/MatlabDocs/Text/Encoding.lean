import MatlabDocs.Text.Basic
import MatlabDocs.Text.Word

/-!
# Encodings

Bytes are read as text in one of three encodings. Bytes that do not fit are replaced: in
UTF-8 each longest start of a character that cannot go on, in ASCII each byte. Other encodings
are not known here.
-/

namespace MatlabDocs

inductive Encoding where
  | utf8
  | latin1
  | ascii
  deriving DecidableEq, Repr

namespace Encoding

def replacement : Char := Char.ofNat 0xFFFD

/-- A character of which `missing` bytes are still to come; the next of them lies between
`least` and `greatest`. -/
structure Partial where
  missing : Nat
  value : Nat
  least : Nat
  greatest : Nat
  deriving DecidableEq, Repr

/-- What a byte at the start of a character gives: a character, the start of one, or neither. -/
def startByte (byte : Nat) : Text × Option Partial :=
  if byte < 0x80 then ([Char.ofNat byte], none)
  else if byte < 0xC2 then ([replacement], none)
  else if byte < 0xE0 then ([], some ⟨1, byte - 0xC0, 0x80, 0xBF⟩)
  else if byte < 0xF0 then
    let least := if byte = 0xE0 then 0xA0 else 0x80
    let greatest := if byte = 0xED then 0x9F else 0xBF
    ([], some ⟨2, byte - 0xE0, least, greatest⟩)
  else if byte < 0xF5 then
    let least := if byte = 0xF0 then 0x90 else 0x80
    let greatest := if byte = 0xF4 then 0x8F else 0xBF
    ([], some ⟨3, byte - 0xF0, least, greatest⟩)
  else ([replacement], none)

def nextByte (pending : Option Partial) (byte : Nat) : Text × Option Partial :=
  match pending with
  | none => startByte byte
  | some part =>
    if part.least ≤ byte && byte ≤ part.greatest then
      let value := part.value * 64 + (byte - 0x80)
      if part.missing ≤ 1 then ([Char.ofNat value], none)
      else ([], some ⟨part.missing - 1, value, 0x80, 0xBF⟩)
    else
      let (text, pending) := startByte byte
      (replacement :: text, pending)

def decodeUtf8From (pending : Option Partial) : List UInt8 → Text
  | [] => if pending.isSome then [replacement] else []
  | byte :: rest =>
    let (text, pending) := nextByte pending byte.toNat
    text ++ decodeUtf8From pending rest

def decode : Encoding → List UInt8 → Text
  | utf8, bytes => decodeUtf8From none bytes
  | latin1, bytes => bytes.map fun byte => Char.ofNat byte.toNat
  | ascii, bytes =>
    bytes.map fun byte => if byte.toNat < 0x80 then Char.ofNat byte.toNat else replacement

/-- The name of an encoding in lower case, with one underscore for each run of signs. -/
def canonicalName (name : Text) : Text :=
  let isLetter (c : Char) : Bool := (isWord c && c != '_') || c == '.'
  let words := (name.splitBy fun a b => isLetter a == isLetter b).filter (·.any isLetter)
  Text.joinWith "_" (words.map fun word => (word.filter (·.toNat < 0x80)).map Char.toLower)

def names : Encoding → List Text
  | utf8 => ["utf_8", "u8", "utf", "utf8", "utf8_ucs2", "utf8_ucs4", "cp65001"]
  | latin1 =>
    ["latin_1", "8859", "cp819", "csisolatin1", "ibm819", "iso8859", "iso8859_1", "iso_8859_1",
     "iso_8859_1_1987", "iso_ir_100", "l1", "latin", "latin1"]
  | ascii =>
    ["ascii", "646", "ansi_x3.4_1968", "ansi_x3_4_1968", "ansi_x3.4_1986", "cp367", "csascii",
     "ibm367", "iso646_us", "iso_646.irv_1991", "iso_ir_6", "us", "us_ascii"]

def ofName? (name : Text) : Option Encoding :=
  [utf8, latin1, ascii].find? fun encoding => encoding.names.contains (canonicalName name)

end Encoding

end MatlabDocs
