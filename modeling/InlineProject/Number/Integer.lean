import InlineProject.Number.Error
import InlineProject.Text.Blank
/-!
Reading and writing integers. Blanks around the number, a sign, the mark of the base and single
underscores between digits are allowed; the digits may be those of any script.
-/

namespace InlineProject.Integer

/-- Blanks around a number; the four separators of ASCII are none. -/
def isPadding (c : Char) : Bool := isBlank c && !(0x1C ≤ c.toNat && c.toNat ≤ 0x1F)

def trimPadding (cs : List Char) : List Char :=
  ((cs.dropWhile isPadding).reverse.dropWhile isPadding).reverse

/-- A sign in front, if there is one, and the rest. -/
def splitSign : List Char → Bool × List Char
  | '-' :: rest => (true, rest)
  | '+' :: rest => (false, rest)
  | cs => (false, cs)

-- The letter that marks a base after a zero.
def baseLetter? (base : Nat) : Option Char :=
  if base = 2 then some 'b' else if base = 8 then some 'o' else if base = 16 then some 'x' else none

/-- Removes the mark of a base, and one underscore behind it. -/
def dropBaseMark (base : Nat) (cs : List Char) : List Char :=
  match cs with
  | '0' :: letter :: rest =>
      if baseLetter? base = some letter.toLower then
        match rest with
        | '_' :: rest => rest
        | rest => rest
      else cs
  | cs => cs

-- `afterDigit` tells whether an underscore may come next.
def digitsFrom (base : Nat) (afterDigit : Bool) : List Char → Option (List Nat)
  | [] => if afterDigit then some [] else none
  | '_' :: rest => if afterDigit then digitsFrom base false rest else none
  | c :: rest =>
      match Digit.value? c with
      | some value => if value < base then (digitsFrom base true rest).map (value :: ·) else none
      | none => none

/-- Whether decimal texts of this base are limited in length: not those of powers of two. -/
def isLimited (base : Nat) : Bool := !(base = 2 || base = 4 || base = 8 || base = 16 || base = 32)

/-- The integer written in a base. -/
def read (base : Nat) (text : Text) : Except NumberError Int :=
  let (negative, rest) := splitSign (trimPadding (Text.toCharsLossy text))
  match digitsFrom base false (dropBaseMark base rest) with
  | none => .error (.notInteger base text)
  | some digits =>
      if isLimited base && NumberError.digitLimit < digits.length then
        .error (.tooManyDigits digits.length)
      else
        let n : Nat := digits.foldl (fun n digit => n * base + digit) 0
        .ok (if negative then -(n : Int) else n)

def readString (base : Nat) (s : String) : Except NumberError Int := read base (Text.ofString s)

/-- The decimal text of an integer. -/
def write (i : Int) : Except NumberError String :=
  let digits := Nat.toDigits 10 i.natAbs
  if NumberError.digitLimit < digits.length then .error .textTooLong
  else .ok (String.ofList (if i < 0 then '-' :: digits else digits))

end InlineProject.Integer
