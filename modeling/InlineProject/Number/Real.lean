import InlineProject.Number.Binary64
/-!
Reading floating point numbers: decimals with an optional fraction and exponent, and the words for
infinity and for no number, in any case.
-/

namespace InlineProject.Real

-- The leading digits of a text, as values, and what follows them.
def leadingDigits : List Char → List Nat × List Char
  | [] => ([], [])
  | c :: rest =>
      match Digit.decimal? c with
      | some value => let (values, rest) := leadingDigits rest; (value :: values, rest)
      | none => ([], c :: rest)

def natOf (values : List Nat) : Nat := values.foldl (fun n value => n * 10 + value) 0

/-- The digits after a point, if there is a point. -/
def fraction : List Char → List Nat × List Char
  | '.' :: rest => leadingDigits rest
  | cs => ([], cs)

/-- An exponent that is the whole text; no exponent is the exponent zero. -/
def exponent? : List Char → Option Int
  | [] => some 0
  | mark :: rest =>
      if mark = 'e' || mark = 'E' then
        let (negative, rest) := Integer.splitSign rest
        match leadingDigits rest with
        | ([], _) => none
        | (values, []) => some (if negative then -(natOf values : Int) else natOf values)
        | _ => none
      else none

def decimal? (negative : Bool) (cs : List Char) : Option Binary64 :=
  let (whole, rest) := leadingDigits cs
  let (part, rest) := fraction rest
  if whole.isEmpty && part.isEmpty then none
  else (exponent? rest).map fun power =>
    let n := natOf (whole ++ part)
    Binary64.ofDecimal negative n (Nat.toDigits 10 n).length (power - part.length)

def word? (negative : Bool) (cs : List Char) : Option Binary64 :=
  let word := cs.map Char.toLower
  if word = "inf".toList || word = "infinity".toList then some (.infinite negative)
  else if word = "nan".toList then some .nan
  else none

/-- The number nearest to what a text says. -/
def read (text : Text) : Except NumberError Binary64 :=
  let (negative, rest) := Integer.splitSign (Integer.trimPadding (Text.toCharsLossy text))
  match word? negative rest <|> decimal? negative rest with
  | some x => .ok x
  | none => .error (.notReal text)

end InlineProject.Real
