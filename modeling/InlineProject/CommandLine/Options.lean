import InlineProject.CommandLine.Word
/-!
What a command line asks for: the one command there is, the paths that it shall expand, and options
before and behind them.
-/

namespace InlineProject.CommandLine

structure Options where
  verbose : Bool
  paths : List String
  output : Option String
  config : String
  registry : Option String
  journal : Option String
deriving DecidableEq, Repr

namespace Options

def commandName : String := "expand"

/-- How the program is called. -/
def usage : String :=
  "usage: adhoc [-h] [-v] expand [-h] [-v] [-o OUTPUT] [--config CONFIG]\n"
    ++ "             [--workspace WORKSPACE] [--log-file LOG_FILE] paths [paths ...]\n"

/-- What is asked for before any argument has been read. -/
def initial : Options := ⟨false, [], none, ".", none, none⟩

/-- Takes note of an option. -/
def set (o : Options) (s : Switch) (value : String) : Except Stop Options :=
  match s with
  | .help => .error .help
  | .verbose => .ok { o with verbose := true }
  | .output => .ok { o with output := some value }
  | .config => .ok { o with config := value }
  | .registry => .ok { o with registry := some value }
  | .journal => .ok { o with journal := some value }

/-- What has been taken from some words. -/
structure Taken where
  options : List (Switch × String)
  words : List Word
  -- Whether something was left that means nothing.
  excess : Bool

def setAll (o : Options) : List (Switch × String) → Except Stop Options
  | [] => .ok o
  | (s, value) :: rest => do (← o.set s value).setAll rest

/-- An option with nothing attached to it; a value is the next word. -/
def alone (words : List Word) (s : Switch) : Except Stop Taken :=
  if s.takesValue then
    match words with
    | .plain value :: rest => .ok ⟨[(s, value)], rest, false⟩
    | _ => .error .usage
  else .ok ⟨[(s, "")], words, false⟩

/-- The options in a word of single letters: those without a value, and then one that takes the rest
as its value. -/
def cluster (v : Vocabulary) (words : List Word) : Switch → List Char → Except Stop Taken
  | s, [] => alone words s
  | s, c :: rest =>
      if s.takesValue then
        let value := if c = Word.equals then rest else c :: rest
        .ok ⟨[(s, String.ofList value)], words, false⟩
      else if c = Word.equals || c = Word.dash then .error .usage
      else
        match Word.lookup v [Word.dash, c] with
        | none => .ok ⟨[(s, "")], words, true⟩
        | some next => do
            let t ← cluster v words next rest
            return { t with options := (s, "") :: t.options }

/-- What a word gives, together with those behind it. -/
def take (v : Vocabulary) (words : List Word) : Word → Except Stop Taken
  | .long s none => alone words s
  | .long s (some value) =>
      if s.takesValue then .ok ⟨[(s, String.ofList value)], words, false⟩ else .error .usage
  | .short s behind => cluster v words s behind
  | _ => .ok ⟨[], words, true⟩

/-- A run of plain words that separators may interrupt. -/
def isPlain : Word → Bool
  | .plain _ | .separator => true
  | _ => false

def textOf? : Word → Option String
  | .plain s => some s
  | _ => none

/-- What has been read behind the command so far. -/
structure Progress where
  options : Options
  -- The paths stand together; later plain words are too many.
  found : Bool
  excess : Bool

-- `fuel` is the number of words.
def readFrom (v : Vocabulary) : Nat → Progress → List Word → Except Stop Progress
  | 0, p, _ => .ok p
  | _ + 1, p, [] => .ok p
  | fuel + 1, p, word :: rest =>
      if isPlain word then
        let paths := ((word :: rest).takeWhile isPlain).filterMap textOf?
        let behind := (word :: rest).dropWhile isPlain
        if p.found || paths.isEmpty then readFrom v fuel { p with excess := true } behind
        else readFrom v fuel ⟨{ p.options with paths := paths }, true, p.excess⟩ behind
      else do
        let t ← take v rest word
        readFrom v fuel ⟨← p.options.setAll t.options, p.found, p.excess || t.excess⟩ t.words

/-- Reads what stands behind the command. Paths have to be given, and nothing may be left over. -/
def readCommand (o : Options) (arguments : List String) : Except Stop Options := do
  let words ← Word.all commandVocabulary arguments
  let p ← readFrom commandVocabulary words.length ⟨o, false, false⟩ words
  if p.found && !p.excess then return p.options else throw .usage

/-- Reads the options before the command, and hands over what stands from the command on. The second
part of the answer tells whether there was an unknown option. -/
def readGlobal (o : Options) (unknown : Bool) : List (String × Word) →
    Except Stop (Options × Bool × List String)
  | [] => .error .usage
  | (text, word) :: rest =>
      if isPlain word then .ok (o, unknown, text :: rest.map (·.1))
      else do
        let t ← take globalVocabulary [] word
        readGlobal (← o.setAll t.options) (unknown || t.excess) rest

/-- Reads a command line. -/
def ofArguments (arguments : List String) : Except Stop Options := do
  let words ← Word.all globalVocabulary arguments
  match ← readGlobal initial false (arguments.zip words) with
  | (o, unknown, command :: rest) =>
      if command ≠ commandName then throw .usage
      else
        let o ← readCommand o rest
        if unknown then throw .usage else return o
  | (_, _, []) => throw .usage

end Options
end InlineProject.CommandLine
