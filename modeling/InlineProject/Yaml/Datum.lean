import InlineProject.Number.Real
import InlineProject.Number.Shortest
import InlineProject.Text.Lowercase
import InlineProject.Text.Replace
import InlineProject.Yaml.Binary
import InlineProject.Yaml.Tag
import InlineProject.Yaml.Timestamp
/-!
What scalars stand for. Data can be keys of mappings, so it matters which of them are the same.
-/

namespace InlineProject.Yaml

inductive Datum where
  | null
  | bool (b : Bool)
  | int (i : Int)
  | real (x : Binary64)
  | text (t : Text)
  | bytes (bs : List UInt8)
  | date (d : Date)
  | dateTime (t : DateTime)
deriving DecidableEq, Inhabited

namespace Datum

/-- Truth values count as the numbers zero and one. -/
def integer? : Datum → Option Int
  | .bool b => some (if b then 1 else 0)
  | .int i => some i
  | .real x => x.toInt?
  | _ => none

/-- Whether two data are one key: numbers by value, moments by instant, all else by kind too. -/
def sameKey (a b : Datum) : Bool :=
  match a, b with
  | .dateTime s, .dateTime t => s.sameMoment t
  | .real x, .real y => x.sameValue y || (x == .nan && y == .nan)
  | a, b =>
      match a.integer?, b.integer? with
      | some i, some j => i == j
      | none, none => a == b
      | _, _ => false

/-- The datum as it is shown inside of a collection. -/
def display : Datum → Except NumberError (List Char)
  | .null => .ok "None".toList
  | .bool b => .ok (if b then "True".toList else "False".toList)
  | .int i => (Integer.write i).map String.toList
  | .real x => .ok x.text.toList
  | .text t => .ok (Quoted.ofText t)
  | .bytes bs => .ok (Quoted.ofBytes bs)
  | .date d => .ok d.display.toList
  | .dateTime t => .ok t.display.toList

/-- The datum as a text: a text is its own, dates are written out, all else is shown. -/
def asText : Datum → Except NumberError Text
  | .text t => .ok t
  | .date d => .ok (Text.ofString d.text)
  | .dateTime t => .ok (Text.ofString t.text)
  | d => d.display.map Text.ofChars

end Datum

/-! ### Reading scalars -/

namespace Datum

def liftNumber {α : Type} (r : Except NumberError α) : Except Error α := r.mapError .number

def dropUnderscores (t : Text) : Text := t.filter (· != .char '_')

/-- A sign in front; a number cannot be empty. -/
def splitSign (t : Text) : Except Error (Bool × Text) :=
  match t with
  | [] => .error .emptyNumber
  | .char '-' :: rest => .ok (true, rest)
  | .char '+' :: rest => .ok (false, rest)
  | t => .ok (false, t)

/-- The parts of a number in base sixty. -/
def sixtieths (t : Text) : List Text := t.splitOn (.char ':')

/-- An integer: binary, octal, hexadecimal or decimal by its first characters, or in base sixty. -/
def readInt (t : Text) : Except Error Int := do
  let (negative, t) ← splitSign (dropUnderscores t)
  let i ←
    if t = Text.ofString "0" then pure 0
    else if (Text.ofString "0b").isPrefixOf t then liftNumber (Integer.read 2 (t.drop 2))
    else if (Text.ofString "0x").isPrefixOf t then liftNumber (Integer.read 16 (t.drop 2))
    else if t.isEmpty then throw .emptyNumber
    else if t.head? = some (.char '0') then liftNumber (Integer.read 8 t)
    else if t.contains (.char ':') then do
      let parts ← liftNumber ((sixtieths t).mapM (Integer.read 10))
      pure (parts.foldl (fun total part => total * 60 + part) 0)
    else liftNumber (Integer.read 10 t)
  return if negative then -i else i

/-- The places of base sixty as floating point numbers; beyond the greatest number there are none. -/
def placeValue (n : Nat) : Except Error Binary64 :=
  match Binary64.ofInt (Nat.pow 60 n : Nat) with
  | .infinite _ => .error (.number .tooLargeForReal)
  | x => .ok x

-- The places are added up from the last one, each sum rounded.
def sumSixtieths (total : Binary64) (place : Nat) : List Binary64 → Except Error Binary64
  | [] => .ok total
  | part :: rest => do
      let value ← placeValue place
      sumSixtieths (total.add (part.mul value)) (place + 1) rest

-- `before` holds the characters before, the last one first; half of a pair is none that has case.
def lowercaseFrom (before : List Char) : Text → Text
  | [] => []
  | .char c :: rest =>
      Text.ofChars (Lowercase.ofCharBetween before (Text.toCharsLossy rest) c)
        ++ lowercaseFrom (c :: before) rest
  | half :: rest => half :: lowercaseFrom ('\uFFFD' :: before) rest

def lowercase (t : Text) : Text := lowercaseFrom [] t

/-- A floating point number, a word for infinity or for no number, or a number in base sixty. -/
def readReal (t : Text) : Except Error Binary64 := do
  let (negative, t) ← splitSign (lowercase (dropUnderscores t))
  if t = Text.ofString ".inf" then return .infinite negative
  else if t = Text.ofString ".nan" then return .nan
  else
    let x ←
      if t.contains (.char ':') then do
        let parts ← liftNumber ((sixtieths t).mapM Real.read)
        sumSixtieths (.zero false) 0 parts.reverse
      else liftNumber (Real.read t)
    return if negative then x.neg else x

def truthWords : List (String × Bool) :=
  [("yes", true), ("no", false), ("true", true), ("false", false), ("on", true), ("off", false)]

def readBool (t : Text) : Except Error Bool :=
  match truthWords.find? fun (word, _) => Text.ofString word = lowercase t with
  | some (_, b) => .ok b
  | none => .error .unknownWord

def readTimestamp (t : Text) : Except Error Datum :=
  match Timestamp.read? (Text.toCharsLossy t) with
  | some (.inl d) => (d.check.map Datum.date).mapError .date
  | some (.inr t) => (t.check.map Datum.dateTime).mapError .date
  | none => .error .notTimestamp

def isAscii : CodePoint → Bool
  | .char c => c.toNat < 0x80
  | .half _ => false

def readBinary (t : Text) : Except Error Datum :=
  if t.all isAscii then
    match Binary.read? (Text.toCharsLossy t) with
    | some bs => .ok (.bytes bs)
    | none => .error .badBase64
  else .error .badBase64

/-- The datum of a text under a kind of scalar; `none` for the other kinds. -/
def read? (kind : Kind) (t : Text) : Option (Except Error Datum) :=
  match kind with
  | .null => some (.ok .null)
  | .bool => some ((readBool t).map .bool)
  | .int => some ((readInt t).map .int)
  | .float => some ((readReal t).map .real)
  | .binary => some (readBinary t)
  | .timestamp => some (readTimestamp t)
  | .str => some (.ok (.text t))
  | _ => none

end Datum
end InlineProject.Yaml
