import InlineProject.Text.CodePoint
import InlineProject.Text.Digit
/-!
Tags say what a node means. A scalar without a tag gets one from the shape of its text: the words
for truth values and for nothing, numbers in several notations, dates, and else a text.
-/

namespace InlineProject.Yaml

/-- What a tag makes of a node. -/
inductive Kind where
  | null
  | bool
  | int
  | float
  | binary
  | timestamp
  | omap
  | pairs
  | set
  | str
  | seq
  | map
  | merge
  | value
  | unknown (tag : String)
deriving DecidableEq, Inhabited

namespace Kind

/-- What the tags of the language begin with. -/
def standardTag : String := "tag:yaml.org,2002:"

def names : List (String × Kind) :=
  [("null", .null), ("bool", .bool), ("int", .int), ("float", .float), ("binary", .binary),
   ("timestamp", .timestamp), ("omap", .omap), ("pairs", .pairs), ("set", .set), ("str", .str),
   ("seq", .seq), ("map", .map), ("merge", .merge), ("value", .value)]

def ofTag (tag : String) : Kind :=
  if standardTag.toList.isPrefixOf tag.toList then
    (names.lookup (String.ofList (tag.toList.drop standardTag.length))).getD (.unknown tag)
  else .unknown tag

end Kind

/-! ### The shapes of untagged scalars

A shape is a reader that answers what it leaves of the text; a text has the shape if some way of
reading leaves nothing. -/

namespace Shape

abbrev Reader := List Char → List (List Char)

def one (p : Char → Bool) : Reader
  | c :: rest => if p c then [rest] else []
  | [] => []

def char (c : Char) : Reader := one (· == c)

def optional (r : Reader) : Reader := fun cs => r cs ++ [cs]

def either (a b : Reader) : Reader := fun cs => a cs ++ b cs

def next (a b : Reader) : Reader := fun cs => (a cs).flatMap b

def all (rs : List Reader) : Reader := rs.foldr next fun cs => [cs]

/-- As many characters of a class as follow each other; the class must not matter behind them. -/
def run (p : Char → Bool) : Reader := fun cs => [cs.dropWhile p]

def run1 (p : Char → Bool) : Reader := next (one p) (run p)

-- A group that is repeated until it does not fit any more.
def repeated (r : Reader) : Nat → Reader
  | 0 => fun cs => [cs]
  | fuel + 1 => fun cs => (r cs).flatMap (repeated r fuel) ++ [cs]

def digit : Reader := one Digit.isAscii
def digits : Reader := run fun c => Digit.isAscii c || c == '_'
def sign : Reader := one fun c => c == '-' || c == '+'

-- A part of a number in base sixty behind its colon.
def sixtieth : Reader :=
  all [char ':', optional (one fun c => '0' ≤ c && c ≤ '5'), digit]

def sixtieths : Reader := fun cs => next sixtieth (repeated sixtieth cs.length) cs

def isWord (words : List String) (cs : List Char) : Bool := words.any (·.toList == cs)

/-- The rest of the text is one of some words. -/
def word (words : List String) : Reader := fun cs => if isWord words cs then [[]] else []

/-- A text has a shape if it is read to its end. -/
def fits (r : Reader) (cs : List Char) : Bool := (r cs).contains []

def isBool (cs : List Char) : Bool :=
  isWord ["yes", "Yes", "YES", "no", "No", "NO", "true", "True", "TRUE", "false", "False", "FALSE",
    "on", "On", "ON", "off", "Off", "OFF"] cs

def isNull (cs : List Char) : Bool := isWord ["~", "null", "Null", "NULL", ""] cs

def exponent : Reader := all [one fun c => c == 'e' || c == 'E', sign, run1 Digit.isAscii]

def float : Reader :=
  [all [optional sign, digit, digits, char '.', digits, optional exponent],
   all [char '.', digit, digits, optional exponent],
   all [optional sign, digit, digits, sixtieths, char '.', digits],
   all [optional sign, char '.', word ["inf", "Inf", "INF"]],
   all [char '.', word ["nan", "NaN", "NAN"]]].foldr either fun _ => []

def int : Reader :=
  [all [optional sign, char '0', char 'b', run1 fun c => c == '0' || c == '1' || c == '_'],
   all [optional sign, char '0', run1 fun c => ('0' ≤ c && c ≤ '7') || c == '_'],
   all [optional sign, either (char '0') (all [one fun c => '1' ≤ c && c ≤ '9', digits])],
   all [optional sign, char '0', char 'x', run1 fun c => Digit.isHex c || c == '_'],
   all [optional sign, one fun c => '1' ≤ c && c ≤ '9', digits, sixtieths]].foldr either fun _ => []

def gap : Reader := run fun c => c == ' ' || c == '\t'

def oneOrTwo : Reader := all [digit, optional digit]

def date : Reader := all [digit, digit, digit, digit, char '-', digit, digit, char '-', digit, digit]

def zone : Reader :=
  either (char 'Z') (all [sign, oneOrTwo, optional (all [char ':', digit, digit])])

def dateTime : Reader :=
  all [digit, digit, digit, digit, char '-', oneOrTwo, char '-', oneOrTwo,
    either (one fun c => c == 'T' || c == 't') (run1 fun c => c == ' ' || c == '\t'),
    oneOrTwo, char ':', digit, digit, char ':', digit, digit,
    optional (all [char '.', run Digit.isAscii]), optional (all [gap, zone])]

end Shape

/-- The kind of an untagged plain scalar. One line break at its end does not count. -/
def Kind.ofPlain (cs : List Char) : Kind :=
  let line := if cs.getLast? == some '\n' then cs.dropLast else cs
  if Shape.isBool line then .bool
  else if Shape.fits Shape.float line then .float
  else if Shape.fits Shape.int line then .int
  else if line == ['<', '<'] then .merge
  -- Here the line break does count: an empty text is nothing only as it stands.
  else if Shape.isNull line && (cs.isEmpty || !line.isEmpty) then .null
  else if Shape.fits Shape.date line || Shape.fits Shape.dateTime line then .timestamp
  else if line == ['='] then .value
  else if line == ['!'] || line == ['&'] || line == ['*'] then .unknown (standardTag ++ "yaml")
  else .str

end InlineProject.Yaml
