import InlineProject.Yaml.Error
/-!
Reading dates and times of day from a scalar.
-/

namespace InlineProject.Yaml.Timestamp

/-- From `least` to `most` digits in front. -/
def digits? (least most : Nat) (cs : List Char) : Option (Nat × List Char) :=
  let run := (cs.take most).takeWhile Digit.isAscii
  if least ≤ run.length then some (Digit.natOf 10 run, cs.drop run.length) else none

def char? (c : Char) : List Char → Option (List Char)
  | d :: rest => if d = c then some rest else none
  | [] => none

def skipGap (cs : List Char) : List Char := cs.dropWhile fun c => c == ' ' || c == '\t'

/-- What separates the time from the date: a letter, or blanks. -/
def timeMark? : List Char → Option (List Char)
  | 'T' :: rest => some rest
  | 't' :: rest => some rest
  | ' ' :: rest => some (skipGap rest)
  | '\t' :: rest => some (skipGap rest)
  | _ => none

/-- A fraction of a second, in microseconds; further digits are dropped. -/
def fraction (cs : List Char) : Nat × List Char :=
  match cs with
  | '.' :: rest =>
      let run := rest.takeWhile Digit.isAscii
      let six := run.take 6
      (Digit.natOf 10 six * Nat.pow 10 (6 - six.length), rest.drop run.length)
  | cs => (0, cs)

/-- The rest of a timestamp: nothing, or an offset in hours and minutes, in seconds. -/
def zone? (cs : List Char) : Option (Option Int) :=
  if cs.isEmpty then some none
  else
    match skipGap cs with
    | ['Z'] => some (some 0)
    | sign :: rest =>
        if sign = '+' || sign = '-' then do
          let (hours, rest) ← digits? 1 2 rest
          let (minutes, rest) ← match rest with
            | ':' :: rest => digits? 2 2 rest
            | rest => some (0, rest)
          if rest.isEmpty then
            let seconds : Int := hours * 3600 + minutes * 60
            some (some (if sign = '-' then -seconds else seconds))
          else none
        else none
    | [] => none

def date? (cs : List Char) : Option (Date × List Char) := do
  let (year, cs) ← digits? 4 4 cs
  let cs ← char? '-' cs
  let (month, cs) ← digits? 1 2 cs
  let cs ← char? '-' cs
  let (day, cs) ← digits? 1 2 cs
  return (⟨year, month, day⟩, cs)

def time? (date : Date) (cs : List Char) : Option DateTime := do
  let cs ← timeMark? cs
  let (hour, cs) ← digits? 1 2 cs
  let cs ← char? ':' cs
  let (minute, cs) ← digits? 2 2 cs
  let cs ← char? ':' cs
  let (second, cs) ← digits? 2 2 cs
  let (microsecond, cs) := fraction cs
  let offset ← zone? cs
  return ⟨date, hour, minute, second, microsecond, offset⟩

/-- A date, or a date with a time of day; one line break at the end does not count. -/
def read? (cs : List Char) : Option (Date ⊕ DateTime) := do
  let cs := if cs.getLast? == some '\n' then cs.dropLast else cs
  let (date, rest) ← date? cs
  if rest.isEmpty then return .inl date
  else return .inr (← time? date rest)

end InlineProject.Yaml.Timestamp
