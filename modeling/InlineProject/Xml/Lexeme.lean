import InlineProject.Text.Digit
import InlineProject.Xml.Character
import InlineProject.Xml.Namespace
/-!
The small parts of a document: names, references, quoted values, comments and instructions. Every
reader answers what it has read and the text behind it.
-/

namespace InlineProject.Xml

def skipSpaces (cs : List Char) : List Char := cs.dropWhile isSpace

/-- Spaces, at least one. -/
def spaces? : List Char → Option (List Char)
  | c :: rest => if isSpace c then some (skipSpaces rest) else none
  | [] => none

/-- The text behind a given start. -/
def after? (start : String) (cs : List Char) : Option (List Char) :=
  if start.toList.isPrefixOf cs then some (cs.drop start.length) else none

/-- A name without a colon. -/
def simpleName? (cs : List Char) : Option (String × List Char) :=
  match cs with
  | c :: rest =>
      if startsName c then
        let more := rest.takeWhile continuesName
        some (String.ofList (c :: more), rest.drop more.length)
      else none
  | [] => none

/-- One name, or two that a colon joins. -/
def name? (cs : List Char) : Option (WrittenName × List Char) := do
  let (first, rest) ← simpleName? cs
  match rest with
  | ':' :: rest => do
      let (second, rest) ← simpleName? rest
      return (⟨some first, second⟩, rest)
  | rest => return (⟨none, first⟩, rest)

/-- The text before a given end, and the text behind it. -/
def until? (stop : List Char) : List Char → Option (List Char × List Char)
  | [] => none
  | c :: rest =>
      if stop.isPrefixOf (c :: rest) then some ([], (c :: rest).drop stop.length)
      else (until? stop rest).map fun (before, rest) => (c :: before, rest)

/-- A comment behind its opening; two hyphens may stand only before its end. -/
def comment? (cs : List Char) : Option (List Char × List Char) := do
  let (text, rest) ← until? ['-', '-'] cs
  match rest with
  | '>' :: rest => return (text, rest)
  | _ => none

/-- An instruction behind its opening. The name of the declaration is no target, in any case. -/
def instruction? (cs : List Char) : Option (List Char) := do
  let (target, rest) ← simpleName? cs
  if target.toList.map Char.toLower = "xml".toList then none
  else
    match after? "?>" rest with
    | some rest => return rest
    | none => do
        let rest ← spaces? rest
        let (_, rest) ← until? ['?', '>'] rest
        return rest

/-- A text in quotes of either kind. -/
def quoted? : List Char → Option (List Char × List Char)
  | quote :: rest =>
      if quote = '\x22' || quote = '\x27' then until? [quote] rest else none
  | [] => none

/-! ### References -/

inductive Reference where
  | char (c : Char)
  | entity (name : String)

/-- The character of a number, if documents may hold it. -/
def charOf? (n : Nat) : Option Char :=
  if h : n.isValidChar then
    let c := Char.ofNatAux n h
    if isAllowed c then some c else none
  else none

-- Numbers that are too long are cut: they are no characters anyway.
def numbered? (base : Nat) (isDigit : Char → Bool) (cs : List Char) : Option (Char × List Char) :=
  let run := cs.takeWhile isDigit
  match run, cs.drop run.length with
  | [], _ => none
  | run, ';' :: rest =>
      let significant := run.dropWhile (· == '0')
      if 10 < significant.length then none
      else (charOf? (Digit.natOf base significant)).map fun c => (c, rest)
  | _, _ => none

def predefined : List (String × Char) :=
  [("lt", '<'), ("gt", '>'), ("amp", '&'), ("quot", '\x22'), ("apos", '\x27')]

/-- A reference behind its ampersand. -/
def reference? (cs : List Char) : Option (Reference × List Char) :=
  match cs with
  | '#' :: 'x' :: rest => (numbered? 16 Digit.isHex rest).map fun (c, rest) => (.char c, rest)
  | '#' :: rest => (numbered? 10 Digit.isAscii rest).map fun (c, rest) => (.char c, rest)
  | cs => do
      let (name, rest) ← simpleName? cs
      match rest with
      | ';' :: rest =>
          match predefined.lookup name with
          | some c => return (.char c, rest)
          | none => return (.entity name, rest)
      | _ => none

/-! ### The declaration -/

def isVersionChar (c : Char) : Bool :=
  Digit.isAscii c || (65 ≤ c.toNat && c.toNat ≤ 90) || (97 ≤ c.toNat && c.toNat ≤ 122)
    || c == '.' || c == '-' || c == '_'

/-- A named value of the declaration, with the spaces before it. -/
def pseudoAttribute? (name : String) (cs : List Char) : Option (List Char × List Char) := do
  let rest ← after? name (← spaces? cs)
  let rest ← after? "=" (skipSpaces rest)
  let (value, rest) ← quoted? (skipSpaces rest)
  if value.all isVersionChar then return (value, rest) else none

def optionalPart (r : List Char → Option (List Char × List Char)) (cs : List Char) :
    Option (List Char) × List Char :=
  match r cs with
  | some (value, rest) => (some value, rest)
  | none => (none, cs)

/-- The declaration at the start of a document: its encoding, and the text behind it. -/
def declaration? (cs : List Char) : Option (Option String × List Char) := do
  let (_, rest) ← pseudoAttribute? "version" cs
  let (encoding, rest) := optionalPart (pseudoAttribute? "encoding") rest
  let (standalone, rest) := optionalPart (pseudoAttribute? "standalone") rest
  let rest ← after? "?>" (skipSpaces rest)
  let named := match encoding with
    | none => true
    | some (c :: _) => c.isAlpha
    | some [] => false
  if named && (standalone.all fun s => s = "yes".toList || s = "no".toList) then
    return (encoding.map String.ofList, rest)
  else none

end InlineProject.Xml
