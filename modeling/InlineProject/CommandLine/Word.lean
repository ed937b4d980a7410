import InlineProject.Text.Digit
/-!
Words of a command line. A word is an option, whose name may be shortened as long as it stays the
only one, or a plain word; behind a separator all words are plain.
-/

namespace InlineProject.CommandLine

inductive Switch where
  | help
  | verbose
  | output
  | config
  | registry
  | journal
deriving DecidableEq, Repr

namespace Switch

def takesValue : Switch → Bool
  | .help | .verbose => false
  | .output | .config | .registry | .journal => true

end Switch

/-- The names of the options that may be given at a place. -/
abbrev Vocabulary := List (String × Switch)

/-- The options before the command. -/
def globalVocabulary : Vocabulary :=
  [("-h", .help), ("--help", .help), ("-v", .verbose), ("--verbose", .verbose)]

/-- The options behind the command. -/
def commandVocabulary : Vocabulary :=
  globalVocabulary ++ [("-o", .output), ("--output", .output), ("--config", .config),
    ("--workspace", .registry), ("--log-file", .journal)]

/-- Why a command line is not carried out. -/
inductive Stop where
  | help
  | usage
deriving DecidableEq, Repr

inductive Word where
  | separator
  | plain (text : String)
  -- An option that nobody knows is carried along to the end.
  | unknown
  -- An option by its name, with the value behind an equals sign.
  | long (s : Switch) (value : Option (List Char))
  -- An option by its letter, with all that is written directly behind it.
  | short (s : Switch) (behind : List Char)
deriving DecidableEq, Repr

namespace Word

def dash : Char := '-'
def separatorText : String := "--"

def equals : Char := '='

/-- What stands before the first equals sign, and behind it. -/
def splitValue (cs : List Char) : List Char × Option (List Char) :=
  match cs.dropWhile (· != equals) with
  | [] => (cs, none)
  | _ :: value => (cs.takeWhile (· != equals), some value)

def isLong (cs : List Char) : Bool := [dash, dash].isPrefixOf cs

def lookup (v : Vocabulary) (name : List Char) : Option Switch := v.lookup (String.ofList name)

/-- The options that a long name may stand for: one that is complete stands for itself alone. -/
def expansions (v : Vocabulary) (name : List Char) : List Switch :=
  match lookup v name with
  | some s => [s]
  | none => (v.filter fun (full, _) => name.isPrefixOf full.toList).map (·.2)

/-- Digits behind a dash, perhaps with a point among them. -/
def isNegativeNumber (cs : List Char) : Bool :=
  let digits (ds : List Char) : Bool := !ds.isEmpty && ds.all fun c => (Digit.decimal? c).isSome
  match cs with
  | '-' :: body =>
      let body := if body.getLast? = some '\n' then body.dropLast else body
      digits body ||
        (match body.dropWhile (· != '.') with
         | _ :: behind =>
             let before := body.takeWhile (· != '.')
             (before.isEmpty || digits before) && digits behind
         | [] => false)
  | _ => false

/-- What a word that begins with a dash may be. -/
def candidates (v : Vocabulary) (cs : List Char) : List Word :=
  if isLong cs then
    let (name, value) := splitValue cs
    (expansions v name).map fun s => .long s value
  else (lookup v (cs.take 2)).toList.map fun s => .short s (cs.drop 2)

/-- What a word before the separator is. -/
def ofString (v : Vocabulary) (text : String) : Except Stop Word :=
  let cs := text.toList
  if text = separatorText then .ok .separator
  else if cs.head? ≠ some dash || cs.length = 1 then .ok (.plain text)
  else
    match candidates v cs with
    | [word] => .ok word
    | _ :: _ :: _ => .error .usage
    | [] => .ok (if isNegativeNumber cs || cs.contains ' ' then .plain text else .unknown)

/-- The words of a command line. -/
def all (v : Vocabulary) : List String → Except Stop (List Word)
  | [] => .ok []
  | s :: rest => do
      match ← ofString v s with
      | .separator => return .separator :: rest.map .plain
      | word => return word :: (← all v rest)

end Word
end InlineProject.CommandLine
