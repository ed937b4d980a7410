import InlineProject.Text.CodePoint
import InlineProject.Text.Printable
import InlineProject.Text.Digit
/-!
Quoted texts for messages: in single quotes, or in double quotes where that saves escapes. What
cannot be shown is written as an escape of two, four or eight hexadecimal digits.
-/

namespace InlineProject.Quoted

def apostrophe : Char := '\x27'
def doubleQuote : Char := '\x22'

def hexEscape (letter : Char) (width n : Nat) : List Char :=
  '\\' :: letter :: Digit.padded width (Digit.ofNat 16 n)

/-- The shortest of the three escapes that holds a number. -/
def numberEscape (n : Nat) : List Char :=
  if n < 0x100 then hexEscape 'x' 2 n
  else if n < 0x10000 then hexEscape 'u' 4 n
  else hexEscape 'U' 8 n

def escaped (quote : Char) : CodePoint → List Char
  | .half offset => numberEscape (CodePoint.half offset).toNat
  | .char c =>
      if c = quote || c = '\\' then ['\\', c]
      else if c = '\t' then ['\\', 't']
      else if c = '\n' then ['\\', 'n']
      else if c = '\r' then ['\\', 'r']
      else if Printable.isPrintable c then [c]
      else numberEscape c.toNat

/-- Double quotes are taken only for a text with apostrophes and without double quotes. -/
def quoteFor (t : Text) : Char :=
  if t.contains (.char apostrophe) && !t.contains (.char doubleQuote) then doubleQuote
  else apostrophe

def ofText (t : Text) : List Char :=
  let quote := quoteFor t
  quote :: t.flatMap (escaped quote) ++ [quote]

def ofString (s : String) : String := String.ofList (ofText (Text.ofString s))

-- A byte is shown as the character of its number if that is one of ASCII, else as two digits.
def escapedByte (quote : Char) (b : UInt8) : List Char :=
  let c := Char.ofNat b.toNat
  if c = quote || c = '\\' then ['\\', c]
  else if c = '\t' then ['\\', 't']
  else if c = '\n' then ['\\', 'n']
  else if c = '\r' then ['\\', 'r']
  else if 0x20 ≤ b.toNat && b.toNat < 0x7F then [c]
  else hexEscape 'x' 2 b.toNat

/-- Bytes, quoted like a text and marked by a leading letter. -/
def ofBytes (bytes : List UInt8) : List Char :=
  let quote :=
    if bytes.contains 0x27 && !bytes.contains 0x22 then doubleQuote else apostrophe
  'b' :: quote :: bytes.flatMap (escapedByte quote) ++ [quote]

/-- A list of quoted texts, in brackets. -/
def ofStrings (items : List String) : String :=
  "[" ++ ", ".intercalate (items.map ofString) ++ "]"

end InlineProject.Quoted
