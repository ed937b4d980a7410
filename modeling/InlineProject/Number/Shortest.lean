import InlineProject.Number.Binary64
/-!
The shortest decimal text of a floating point number that reads back as the same number. Of all
decimals with the least number of digits, the one nearest to the number is taken.
-/

namespace InlineProject.Shortest

/-- The reals that round to a number, and the number itself, as multiples of `1 / den`. -/
structure Interval where
  low : Nat
  mid : Nat
  high : Nat
  den : Nat
  closed : Bool

-- The gap below a power of two is half of the gap above it.
def interval (m : Nat) (e : Int) : Interval :=
  let below := if m = Binary64.leastSignificand ∧ e ≠ Binary64.leastExponent then 1 else 2
  let (unit, den) := Binary64.scale 1 1 (e - 2)
  ⟨(4 * m - below) * unit, 4 * m * unit, (4 * m + 2) * unit, den, m % 2 = 0⟩

def Interval.contains (i : Interval) (num den : Nat) : Bool :=
  let x := num * i.den
  if i.closed then i.low * den ≤ x && x ≤ i.high * den else i.low * den < x && x < i.high * den

/-- How many digits a positive number has before the point; negative for zeros after it. -/
def pointOf (i : Interval) : Int :=
  ((Nat.toDigits 10 (i.mid * Nat.pow 10 400 / i.den)).length : Int) - 400

/-- The grid of decimals with `count` digits: the neighbours of the number that are in the interval,
the nearer one first. -/
def onGrid (i : Interval) (point : Int) (count : Nat) : Option Nat :=
  let power := point - count
  let (up, down) := if 0 ≤ power then (Nat.pow 10 power.toNat, 1) else (1, Nat.pow 10 (-power).toNat)
  let floor := i.mid * down / (i.den * up)
  let excess := i.mid * down % (i.den * up)
  let fits (n : Nat) := i.contains (n * up) down
  let lower := if fits floor && floor != 0 then some floor else none
  let upper := if fits (floor + 1) then some (floor + 1) else none
  match lower, upper with
  | none, other => other
  | some n, none => some n
  | some n, some k =>
      let twice := 2 * excess
      if twice < i.den * up then some n
      else if i.den * up < twice then some k
      else if n % 2 = 0 then some n else some k

-- Seventeen digits always read back, so the search ends there at the latest.
def searchFrom (i : Interval) (point : Int) : Nat → Nat → Option (Nat × Nat)
  | 0, _ => none
  | fuel + 1, count =>
      match onGrid i point count with
      | some n => some (count, n)
      | none => searchFrom i point fuel (count + 1)

/-- What a search found, without zeros at the end. A neighbour may be the next power of ten, which
has one digit more than its grid. -/
def trimmed (point : Int) : Option (Nat × Nat) → List Char × Int
  | some (count, n) =>
      let ds := Nat.toDigits 10 n
      ((ds.reverse.dropWhile (· == '0')).reverse, point + ((ds.length : Int) - count))
  | none => ([], point)

/-- The digits of a positive number and the place of the point, counted from the first digit. -/
def digits (m : Nat) (e : Int) : List Char × Int :=
  let i := interval m e
  trimmed (pointOf i) (searchFrom i (pointOf i) 17 1)

/-- How a decimal is laid out. -/
structure Layout where
  -- The places of the point for which the number is written without an exponent.
  leastPoint : Int
  greatestPoint : Int
  exponentWidth : Nat
  nanText : String
  infinityText : String

/-- Without an exponent from 0.0001 up to 10^16; a number without fraction keeps `.0` there. -/
def layout : Layout := ⟨-3, 16, 2, "nan", "inf"⟩

def positional (ds : List Char) (point : Int) : List Char :=
  if point ≤ 0 then '0' :: '.' :: List.replicate (-point).toNat '0' ++ ds
  else
    let n := point.toNat
    if n < ds.length then ds.take n ++ '.' :: ds.drop n
    else ds ++ List.replicate (n - ds.length) '0' ++ ['.', '0']

def withExponent (width : Nat) (ds : List Char) (point : Int) : List Char :=
  let exponent := point - 1
  let mantissa := match ds with
    | [] => ['0']
    | [d] => [d]
    | d :: rest => d :: '.' :: rest
  mantissa ++ 'e' :: (if exponent < 0 then '-' else '+')
    :: Digit.padded width (Nat.toDigits 10 exponent.natAbs)

/-- Digits with their point, with an exponent or without. -/
def Layout.place (l : Layout) : List Char × Int → List Char
  | (ds, point) =>
      if l.leastPoint ≤ point ∧ point ≤ l.greatestPoint then positional ds point
      else withExponent l.exponentWidth ds point

def Layout.render (l : Layout) : Binary64 → List Char
  | .nan => l.nanText.toList
  | .infinite negative => (if negative then ['-'] else []) ++ l.infinityText.toList
  | .finite negative m e =>
      let sign := if negative then ['-'] else []
      if m = 0 then sign ++ ['0', '.', '0'] else sign ++ l.place (digits m e)

end InlineProject.Shortest

namespace InlineProject.Binary64

def text (x : Binary64) : String := String.ofList (Shortest.layout.render x)

end InlineProject.Binary64
