import InlineProject.Json.Value
import InlineProject.Number.Real
/-!
Reading a value from text. Of a name that occurs twice in an object the last value counts. Beyond
the common grammar, `NaN` and the two infinities are numbers.
-/

namespace InlineProject.Json

inductive ReadError where
  | malformed
  | number (e : NumberError)
deriving DecidableEq

def isSpace (c : Char) : Bool := c == ' ' || c == '\t' || c == '\n' || c == '\r'

def skipSpaces (cs : List Char) : List Char := cs.dropWhile isSpace

def hexValue (cs : List Char) : Nat := Digit.natOf 16 cs

/-- The number of four hexadecimal digits in front. -/
def fourHex? (cs : List Char) : Option (Nat × List Char) :=
  let digits := cs.take 4
  if digits.length = 4 && digits.all Digit.isHex then some (hexValue digits, cs.drop 4) else none

def isHighHalf (n : Nat) : Bool := 0xD800 ≤ n && n < 0xDC00
def isLowHalf (n : Nat) : Bool := 0xDC00 ≤ n && n < 0xE000

def joinHalves (high low : Nat) : Nat := 0x10000 + (high - 0xD800) * 0x400 + (low - 0xDC00)

/-- The code point of an escape by number; two halves of a pair are one character. -/
def unicodeEscape? (cs : List Char) : Option (CodePoint × List Char) := do
  let (n, rest) ← fourHex? cs
  let alone := (CodePoint.ofNat? n).map fun p => (p, rest)
  match rest with
  | '\\' :: 'u' :: more =>
      match fourHex? more with
      | some (low, after) =>
          if isHighHalf n && isLowHalf low then
            (CodePoint.ofNat? (joinHalves n low)).map fun p => (p, after)
          else alone
      | none => alone
  | _ => alone

def simpleEscape? (c : Char) : Option Char :=
  if c = '\x22' || c = '\\' || c = '/' then some c
  else if c = 'b' then some '\x08'
  else if c = 'f' then some '\x0C'
  else if c = 'n' then some '\n'
  else if c = 'r' then some '\r'
  else if c = 't' then some '\t'
  else none

-- The text behind an opening quote. The fuel is the length of what is left.
def textFrom : Nat → List Char → Except ReadError (Text × List Char)
  | 0, _ => .error .malformed
  | _ + 1, [] => .error .malformed
  | _ + 1, '\x22' :: rest => .ok ([], rest)
  | fuel + 1, '\\' :: 'u' :: rest =>
      match unicodeEscape? rest with
      | some (p, rest) => do
          let (t, rest) ← textFrom fuel rest
          return (p :: t, rest)
      | none => .error .malformed
  | _ + 1, ['\\'] => .error .malformed
  | fuel + 1, '\\' :: c :: rest =>
      match simpleEscape? c with
      | some c => do
          let (t, rest) ← textFrom fuel rest
          return (.char c :: t, rest)
      | none => .error .malformed
  | fuel + 1, c :: rest =>
      if c.toNat < 0x20 then .error .malformed
      else do
        let (t, rest) ← textFrom fuel rest
        return (.char c :: t, rest)

def text (cs : List Char) : Except ReadError (Text × List Char) := textFrom cs.length cs

/-- A fraction: a point with a digit or more behind it, or nothing. -/
def splitFraction : List Char → List Char × List Char
  | '.' :: rest =>
      let digits := rest.takeWhile Digit.isAscii
      if digits.isEmpty then ([], '.' :: rest) else ('.' :: digits, rest.drop digits.length)
  | cs => ([], cs)

/-- An exponent with a digit or more, or nothing. -/
def splitExponent : List Char → List Char × List Char
  | cs@(mark :: rest) =>
      if mark = 'e' || mark = 'E' then
        let (sign, more) := match rest with
          | '+' :: more => (['+'], more)
          | '-' :: more => (['-'], more)
          | more => ([], more)
        let digits := more.takeWhile Digit.isAscii
        if digits.isEmpty then ([], cs)
        else (mark :: sign ++ digits, more.drop digits.length)
      else ([], cs)
  | [] => ([], [])

/-- A number without its sign: an integer unless it has a fraction or an exponent. -/
def magnitude (negative : Bool) (cs : List Char) : Except ReadError (Json × List Char) :=
  let whole := match cs with
    | '0' :: _ => ['0']
    | _ => cs.takeWhile Digit.isAscii
  if whole.isEmpty then .error .malformed
  else
    let (fraction, rest) := splitFraction (cs.drop whole.length)
    let (exponent, rest) := splitExponent rest
    let signed := Text.ofChars ((if negative then ['-'] else []) ++ whole ++ fraction ++ exponent)
    if fraction.isEmpty && exponent.isEmpty then
      match Integer.read 10 signed with
      | .ok i => .ok (.int i, rest)
      | .error e => .error (.number e)
    else
      match Real.read signed with
      | .ok x => .ok (.real x, rest)
      | .error e => .error (.number e)

def words : List (String × Json) :=
  [("null", .null), ("true", .bool true), ("false", .bool false), ("NaN", .real .nan),
   ("Infinity", .real (.infinite false)), ("-Infinity", .real (.infinite true))]

/-- A value that is a word or a number. -/
def atom (cs : List Char) : Except ReadError (Json × List Char) :=
  match words.find? fun (word, _) => word.toList.isPrefixOf cs with
  | some (word, value) => .ok (value, cs.drop word.length)
  | none =>
      match cs with
      | '-' :: rest => magnitude true rest
      | cs => magnitude false cs

mutual
-- The fuel bounds the nesting and the number of items together.
def value : Nat → List Char → Except ReadError (Json × List Char)
  | 0, _ => .error .malformed
  | fuel + 1, cs =>
      match cs with
      | '\x22' :: rest => do
          let (t, rest) ← text rest
          return (.str t, rest)
      | '[' :: rest =>
          match skipSpaces rest with
          | ']' :: rest => .ok (.arr [], rest)
          | rest => do
              let (values, rest) ← items fuel rest
              return (.arr values, rest)
      | '\x7b' :: rest =>
          match skipSpaces rest with
          | '\x7d' :: rest => .ok (.obj [], rest)
          | rest => do
              let (pairs, rest) ← fields fuel rest
              return (.obj (distinctFields pairs), rest)
      | cs => atom cs

def items : Nat → List Char → Except ReadError ((List Json) × List Char)
  | 0, _ => .error .malformed
  | fuel + 1, cs => do
      let (first, rest) ← value fuel cs
      match skipSpaces rest with
      | ']' :: rest => return ([first], rest)
      | ',' :: rest => do
          let (others, rest) ← items fuel (skipSpaces rest)
          return (first :: others, rest)
      | _ => .error .malformed

def fields : Nat → List Char → Except ReadError ((List (Text × Json)) × List Char)
  | 0, _ => .error .malformed
  | fuel + 1, cs =>
      match cs with
      | '\x22' :: rest => do
          let (name, rest) ← text rest
          match skipSpaces rest with
          | ':' :: rest => do
              let (first, rest) ← value fuel (skipSpaces rest)
              match skipSpaces rest with
              | '\x7d' :: rest => return ([(name, first)], rest)
              | ',' :: rest => do
                  let (others, rest) ← fields fuel (skipSpaces rest)
                  return ((name, first) :: others, rest)
              | _ => .error .malformed
          | _ => .error .malformed
      | _ => .error .malformed
end

/-- The value that a whole text says. -/
def read (cs : List Char) : Except ReadError Json := do
  let (j, rest) ← value (cs.length + 1) (skipSpaces cs)
  if (skipSpaces rest).isEmpty then return j else .error .malformed

def readString (s : String) : Except ReadError Json := read s.toList

end InlineProject.Json
