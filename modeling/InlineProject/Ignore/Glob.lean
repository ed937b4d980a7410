/-!
Patterns of names with wildcards: an asterisk for any run of characters, a question mark for one of
any kind, and characters in brackets for one of them. Slashes are characters like all others.
-/

namespace InlineProject

/-- A character from the first one of a range up to the last one. -/
abbrev CharRange := Char × Char

inductive Glob.Piece where
  | char (c : Char)
  | anyChar
  | anyRun
  -- One character in, or where `negated` says so outside, of all the ranges.
  | oneOf (negated : Bool) (ranges : List CharRange)
deriving DecidableEq, Repr

abbrev Glob := List Glob.Piece

namespace Glob

/-- What is left of a text behind each of its positions, longest first. -/
def suffixes {α : Type} : List α → List (List α)
  | [] => [[]]
  | c :: rest => (c :: rest) :: suffixes rest

def inRanges (ranges : List CharRange) (c : Char) : Bool :=
  ranges.any fun (first, last) => first ≤ c && c ≤ last

/-- Whether a piece stands for a character. -/
def Piece.holds : Piece → Char → Bool
  | .char expected, c => c = expected
  | .anyChar, _ => true
  | .anyRun, _ => false
  | .oneOf negated ranges, c => inRanges ranges c != negated

/-- Whether the whole of a text is what the pieces stand for. -/
def accepts : Glob → List Char → Bool
  | [], cs => cs.isEmpty
  | .anyRun :: rest, cs => (suffixes cs).any (accepts rest)
  | _ :: _, [] => false
  | piece :: rest, c :: cs => piece.holds c && accepts rest cs

/-! ### Characters in brackets -/

def hyphen : Char := '-'
def negation : Char := '!'

/-- What stands in brackets, and what comes behind them. A closing bracket in the first place, or
behind the negation, is a character; brackets that nothing closes are none. -/
def bracket? (cs : List Char) : Option (List Char × List Char) :=
  let (opening, cs) := cs.splitAt (if cs.head? = some negation then 1 else 0)
  let (first, cs) := cs.splitAt (if cs.head? = some ']' then 1 else 0)
  match cs.dropWhile (· != ']') with
  | [] => none
  | _ :: rest => some (opening ++ first ++ cs.takeWhile (· != ']'), rest)

-- A hyphen makes a range where a character stands before it, apart from the end of the range
-- before. The parts between such hyphens begin with the end of one range and end with the start of
-- the next one. `fuel` is the number of characters.
def partsFrom : Nat → Nat → List Char → List (List Char)
  | 0, _, cs => [cs]
  | fuel + 1, skip, cs =>
      let (head, tail) := cs.splitAt skip
      match tail.dropWhile (· != hyphen) with
      | [] => [cs]
      | _ :: [] => [cs]
      | _ :: behind => (head ++ tail.takeWhile (· != hyphen)) :: partsFrom fuel 2 behind

def parts (body : List Char) : List (List Char) :=
  partsFrom body.length (if body.head? = some negation then 2 else 1) body

/-- A range that ends before its start is dropped; its neighbours move together. -/
def dropEmptyRanges : List (List Char) → List (List Char)
  | [] => []
  | part :: rest =>
      match dropEmptyRanges rest with
      | [] => [part]
      | next :: others =>
          match part.getLast?, next.head? with
          | some start, some stop =>
              if stop < start then (part.dropLast ++ next.tail) :: others
              else part :: next :: others
          | _, _ => part :: next :: others

inductive Sign where
  | char (c : Char)
  | through
deriving DecidableEq

def signs (ps : List (List Char)) : List Sign :=
  List.intercalate [.through] (ps.map (·.map Sign.char))

-- A sign for a range with nothing before it is a hyphen.
def ranges : List Sign → List CharRange
  | .char first :: .through :: .char last :: rest => (first, last) :: ranges rest
  | .char c :: rest => (c, c) :: ranges rest
  | .through :: rest => (hyphen, hyphen) :: ranges rest
  | [] => []

/-- The piece for what stands in brackets. Only once the empty ranges are gone, the first character
tells whether the others are shut out. -/
def classPiece (body : List Char) : Piece :=
  match signs (dropEmptyRanges (parts body)) with
  | .char '!' :: rest => .oneOf true (ranges rest)
  | all => .oneOf false (ranges all)

/-! ### Reading patterns -/

-- `fuel` is the number of characters.
def ofCharsFrom : Nat → List Char → Glob
  | 0, _ => []
  | _ + 1, [] => []
  | fuel + 1, c :: rest =>
      if c = '*' then .anyRun :: ofCharsFrom fuel rest
      else if c = '?' then .anyChar :: ofCharsFrom fuel rest
      else if c = '[' then
        match bracket? rest with
        | some (body, behind) => classPiece body :: ofCharsFrom fuel behind
        | none => .char c :: ofCharsFrom fuel rest
      else .char c :: ofCharsFrom fuel rest

def ofString (s : String) : Glob := ofCharsFrom s.length s.toList

end Glob
end InlineProject
