import InlineProject.Text.Utf8
import InlineProject.Xml.Codepage
import InlineProject.Xml.Parser
/-!
Documents given as bytes. A mark at the start or the first two bytes tell encodings by 16-bit units
from those by bytes; among the latter the declaration of the document chooses.
-/

namespace InlineProject.Xml

inductive Encoding where
  | utf8
  | utf16 (bigEndian : Bool)
  | latin1
  | ascii
  | codepage (p : Codepage)
  -- Characters of several bytes each, other than those above, are not read.
  | manyBytes

inductive BytesError where
  | malformed
  | unknownEncoding (name : String)
  | manyBytes
deriving DecidableEq

namespace Encoding

def unitsOf (bigEndian : Bool) : List UInt8 → Option (List Nat)
  | [] => some []
  | [_] => none
  | a :: b :: rest =>
      let (high, low) := if bigEndian then (a, b) else (b, a)
      (unitsOf bigEndian rest).map fun units => (high.toNat * 256 + low.toNat) :: units

/-- Characters of 16-bit units; halves of pairs have to come together. -/
def ofUnits? : List Nat → Option (List Char)
  | [] => some []
  | [u] => if 0xD800 ≤ u && u < 0xE000 then none else some [Char.ofNat u]
  | u :: v :: rest =>
      if 0xD800 ≤ u && u < 0xDC00 then
        if 0xDC00 ≤ v && v < 0xE000 then
          (ofUnits? rest).map (Char.ofNat (0x10000 + (u - 0xD800) * 0x400 + (v - 0xDC00)) :: ·)
        else none
      else if 0xDC00 ≤ u && u < 0xE000 then none
      else (ofUnits? (v :: rest)).map (Char.ofNat u :: ·)

def decode? (e : Encoding) (bytes : List UInt8) : Option (List Char) :=
  match e with
  | .utf8 => (String.fromUTF8? ⟨bytes.toArray⟩).map String.toList
  | .utf16 bigEndian => (unitsOf bigEndian bytes).bind ofUnits?
  | .latin1 => some (bytes.map fun b => Char.ofNat b.toNat)
  | .codepage p => p.decode? bytes
  | .manyBytes => none
  | .ascii => bytes.mapM fun b => if b < 0x80 then some (Char.ofNat b.toNat) else none

/-- Names that stand for an encoding as they are. -/
def ownNames : List (String × Encoding) :=
  [("utf-8", .utf8), ("iso-8859-1", .latin1), ("us-ascii", .ascii)]

-- Under any other name, UTF-8 is taken for an encoding by single bytes, of which ASCII is left.
def asciiNames : List String :=
  ["ascii", "646", "us_ascii", "utf_8", "utf8", "u8", "utf", "cp65001"]

def latin1Names : List String :=
  ["latin_1", "latin1", "latin", "l1", "iso8859_1", "iso_8859_1", "iso8859", "8859", "cp819"]

def codepageNames : List (String × Codepage) := [
  ("iso8859_2", .latin2), ("iso_8859_2", .latin2), ("latin2", .latin2), ("l2", .latin2),
  ("iso8859_5", .cyrillic), ("iso_8859_5", .cyrillic), ("cyrillic", .cyrillic),
  ("iso8859_15", .latin9), ("iso_8859_15", .latin9), ("latin9", .latin9), ("l9", .latin9),
  ("cp1250", .windows1250), ("windows_1250", .windows1250), ("1250", .windows1250),
  ("cp1251", .windows1251), ("windows_1251", .windows1251), ("1251", .windows1251),
  ("cp1252", .windows1252), ("windows_1252", .windows1252), ("1252", .windows1252),
  ("koi8_r", .koi8r)]

def manyBytesNames : List String := [
  "shift_jis", "shiftjis", "sjis", "s_jis", "cp932", "euc_jp", "eucjp", "ujis", "iso2022_jp",
  "iso_2022_jp", "gb2312", "gbk", "cp936", "gb18030", "hz", "big5", "cp950", "euc_kr", "euckr",
  "cp949", "johab", "utf_7", "utf7", "utf_16", "utf16", "utf_16_be", "utf_16_le", "utf_32", "utf32",
  "utf_32_be", "utf_32_le"]

def lower (name : String) : String := String.ofList (name.toList.map Char.toLower)

/-- The encoding of a name, in any case; but for a few names, hyphens do not matter. -/
def named? (name : String) : Option Encoding :=
  let plain := String.ofList ((lower name).toList.map fun c => if c = '-' then '_' else c)
  match ownNames.lookup (lower name) with
  | some e => some e
  | none =>
      if asciiNames.contains plain then some .ascii
      else if latin1Names.contains plain then some .latin1
      else if manyBytesNames.contains plain then some .manyBytes
      else (codepageNames.lookup plain).map .codepage

def isWide (name : String) : Bool := ["utf-16", "utf-16be", "utf-16le"].contains (lower name)

end Encoding

/-- The encoding that the declaration of a text names. -/
def declaredEncoding? (cs : List Char) : Option String := do
  let (encoding, _) ← declaration? (← after? "<?xml" cs)
  encoding

/-- The encoding by 16-bit units that the first bytes tell, and the bytes behind a mark. -/
def wideStart? : List UInt8 → Option (Bool × List UInt8)
  | 0xFE :: 0xFF :: rest => some (true, rest)
  | 0xFF :: 0xFE :: rest => some (false, rest)
  | 0x00 :: 0x3C :: rest => some (true, 0x00 :: 0x3C :: rest)
  | 0x3C :: 0x00 :: rest => some (false, 0x3C :: 0x00 :: rest)
  | _ => none

def dropMark : List UInt8 → List UInt8
  | 0xEF :: 0xBB :: 0xBF :: rest => rest
  | bytes => bytes

def textOfBytes (bytes : List UInt8) : Except BytesError (List Char) :=
  let decoded (e : Encoding) (bytes : List UInt8) : Except BytesError (List Char) :=
    match e.decode? bytes with
    | some cs => .ok cs
    | none => .error .malformed
  match wideStart? bytes with
  | some (bigEndian, rest) => do
      let cs ← decoded (.utf16 bigEndian) rest
      match declaredEncoding? cs with
      | some name => if Encoding.isWide name then return cs else throw .malformed
      | none => return cs
  | none =>
      let bytes := dropMark bytes
      -- A declaration is written in ASCII, whatever comes behind it.
      match declaredEncoding? (bytes.map fun b => Char.ofNat b.toNat) with
      | none => decoded .utf8 bytes
      | some name =>
          if Encoding.isWide name then .error .malformed
          else
            match Encoding.named? name with
            | some .manyBytes => .error .manyBytes
            | some e => decoded e bytes
            | none => .error (.unknownEncoding name)

/-- The root of a document given as bytes. -/
def parseBytes (bytes : ByteArray) : Except BytesError Node := do
  match ← textOfBytes bytes.toList with
  -- Only one mark may stand at the start.
  | '\uFEFF' :: _ => throw .malformed
  | cs =>
      match parse? .dropped cs with
      | some root => return root
      | none => throw .malformed

end InlineProject.Xml
