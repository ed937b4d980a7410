import InlineProject.Calendar
import InlineProject.Path
/-!
The journal of a run: what is told on the way, to standard error and to a file. Each line names its
level; the file also says when it was and which part of the program speaks.
-/

namespace InlineProject

inductive Level where
  | debug
  | info
  | warning
  | error
  | critical
deriving DecidableEq, Repr, Inhabited

namespace Level

def all : List Level := [.debug, .info, .warning, .error, .critical]

def name : Level → String
  | .debug => "DEBUG"
  | .info => "INFO"
  | .warning => "WARNING"
  | .error => "ERROR"
  | .critical => "CRITICAL"

def rank : Level → Nat
  | .debug => 10
  | .info => 20
  | .warning => 30
  | .error => 40
  | .critical => 50

end Level

/-- A line of the journal; an empty part stands for the program as a whole. -/
structure Note where
  level : Level
  part : String
  message : String
deriving DecidableEq, Repr

namespace Note

def programName : String := "adhoc"

def speaker (part : String) : String :=
  if part.isEmpty then programName else programName ++ "." ++ part

def consoleLine (n : Note) : String :=
  "[" ++ programName ++ "] " ++ n.level.name ++ " " ++ n.message ++ "\n"

/-- The moment at the start of a line in the file, to the millisecond. -/
def stamp (now : DateTime) : String :=
  let clock := Date.twoDigits now.hour ++ ":" ++ Date.twoDigits now.minute ++ ":"
    ++ Date.twoDigits now.second
  let thousandths := Digit.padded 3 (Nat.toDigits 10 (now.microsecond / 1000))
  now.date.text ++ " " ++ clock ++ "," ++ String.ofList thousandths

def fileLine (now : DateTime) (n : Note) : String :=
  stamp now ++ " " ++ n.level.name ++ " " ++ speaker n.part ++ ": " ++ n.message ++ "\n"

end Note

/-- Who listens: nobody before the journal is set up, then standard error and perhaps a file. -/
structure Journal where
  threshold : Level
  file : Option Path
deriving DecidableEq, Repr

namespace Journal

def hears (j : Journal) (n : Note) : Bool := j.threshold.rank ≤ n.level.rank

/-- Details are told only where they are asked for. -/
def thresholdFor (verbose : Bool) : Level := if verbose then .debug else .info

/-- How many places the journal goes to. -/
def outlets (j : Journal) : Nat := if j.file.isSome then 2 else 1

end Journal
end InlineProject
