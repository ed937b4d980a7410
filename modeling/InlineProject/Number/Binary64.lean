import InlineProject.Number.Integer
/-!
Floating point numbers of 64 bits, as exact values: a significand below 2^53 times a power of two.
Every operation computes the exact result first and rounds once, to nearest with ties to even.
-/

namespace InlineProject

inductive Binary64 where
  | nan
  | infinite (negative : Bool)
  | finite (negative : Bool) (significand : Nat) (exponent : Int)
deriving DecidableEq, Inhabited

namespace Binary64

def leastExponent : Int := -1074
def greatestExponent : Int := 971

def zero (negative : Bool) : Binary64 := .finite negative 0 leastExponent

/-- The quotient rounded to nearest; a tie goes to the even neighbour. -/
def roundQuotient (num den : Nat) : Nat :=
  let q := num / den
  let twice := 2 * (num % den)
  if twice < den then q else if den < twice then q + 1 else if q % 2 = 0 then q else q + 1

/-- The least significand of a number that is not subnormal: the 52nd power of two. -/
def leastSignificand : Nat := 0x10000000000000

/-- A fraction times a power of two, as a fraction. -/
def scale (num den : Nat) (power : Int) : Nat × Nat :=
  if 0 ≤ power then (num * Nat.pow 2 power.toNat, den)
  else (num, den * Nat.pow 2 (-power).toNat)

/-- The exponent at which a fraction has a significand of 53 bits, or the least exponent. -/
def exponentOf (num den : Nat) : Int :=
  let guess : Int := (Nat.log2 num : Int) - (Nat.log2 den : Int) - 52
  let (n, d) := scale num den (-guess)
  max leastExponent (if n < leastSignificand * d then guess - 1 else guess)

/-- The number nearest to a fraction; `den` is positive. -/
def ofRatio (negative : Bool) (num den : Nat) : Binary64 :=
  if num = 0 then zero negative
  else
    let exponent := exponentOf num den
    let (n, d) := scale num den (-exponent)
    let m := roundQuotient n d
    let (m, exponent) := if m = 2 * leastSignificand then (leastSignificand, exponent + 1) else (m, exponent)
    if greatestExponent < exponent then .infinite negative else .finite negative m exponent

def ofInt (i : Int) : Binary64 := ofRatio (i < 0) i.natAbs 1

-- Powers of ten far outside of the range are not computed.
/-- The number nearest to `digits` times a power of ten; `length` is the number of digits. -/
def ofDecimal (negative : Bool) (digits length : Nat) (power : Int) : Binary64 :=
  if digits = 0 then zero negative
  else if 400 < (length : Int) + power then .infinite negative
  else if (length : Int) + power < -400 then zero negative
  else if 0 ≤ power then ofRatio negative (digits * Nat.pow 10 power.toNat) 1
  else ofRatio negative digits (Nat.pow 10 (-power).toNat)

def isNegative : Binary64 → Bool
  | .nan => false
  | .infinite negative => negative
  | .finite negative _ _ => negative

def neg : Binary64 → Binary64
  | .nan => .nan
  | .infinite negative => .infinite !negative
  | .finite negative m e => .finite (!negative) m e

/-- The value as an integer multiple of `2 ^ power`, for a power not above the exponent. -/
def atPower (negative : Bool) (m : Nat) (e power : Int) : Int :=
  let n : Int := (m * Nat.pow 2 (e - power).toNat : Nat)
  if negative then -n else n

def ofScaledInt (i power : Int) : Binary64 :=
  let (n, d) := scale i.natAbs 1 power
  ofRatio (i < 0) n d

def add : Binary64 → Binary64 → Binary64
  | .nan, _ => .nan
  | _, .nan => .nan
  | .infinite a, .infinite b => if a = b then .infinite a else .nan
  | .infinite a, _ => .infinite a
  | _, .infinite b => .infinite b
  | .finite a m e, .finite b n f =>
      let power := min e f
      let sum := atPower a m e power + atPower b n f power
      if sum = 0 then zero (a && b) else ofScaledInt sum power

def mul : Binary64 → Binary64 → Binary64
  | .nan, _ => .nan
  | _, .nan => .nan
  | .infinite a, .infinite b => .infinite (a != b)
  | .infinite a, .finite b n _ => if n = 0 then .nan else .infinite (a != b)
  | .finite a m _, .infinite b => if m = 0 then .nan else .infinite (a != b)
  | .finite a m e, .finite b n f =>
      let (num, den) := scale (m * n) 1 (e + f)
      ofRatio (a != b) num den

/-- The integer that a number is equal to, if there is one. -/
def toInt? : Binary64 → Option Int
  | .finite negative m e =>
      let (n, d) := scale m 1 e
      if n % d = 0 then
        let q : Int := (n / d : Nat)
        some (if negative then -q else q)
      else none
  | _ => none

/-- Whether two numbers are equal as numbers: the zeros are, and nothing is equal to a NaN. -/
def sameValue : Binary64 → Binary64 → Bool
  | .nan, _ => false
  | _, .nan => false
  | .finite a m e, .finite b n f => (m = 0 && n = 0) || (a = b && m = n && e = f)
  | x, y => x = y

end Binary64
end InlineProject
