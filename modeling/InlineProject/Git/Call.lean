import InlineProject.Disk.Basic
import InlineProject.Text.Blank
import InlineProject.Text.Utf8
/-!
Calls of the version control program. What it answers and what it does to the disk is up to a
runner; a call can fail by the program's own judgement, or because it does not start at all.
-/

namespace InlineProject.Git

/-- Who is named as author and committer. -/
structure Identity where
  name : String
  email : String
deriving DecidableEq, Repr

structure Call where
  arguments : List String
  directory : Path
  -- Given for commits only.
  identity : Option Identity
  -- Whether the answer is of interest.
  capture : Bool
deriving DecidableEq, Repr

/-- How a program ended that did not succeed. -/
inductive Status where
  | code (n : Nat)
  | signal (n : Nat)
deriving DecidableEq, Repr

inductive Reply where
  | output (text : String)
  | failed (status : Status) (complaint : Option String)
  | unavailable (e : FileError)
  | unreadable (e : Utf8.Failure)
deriving DecidableEq

/-- Answers a call and changes the disk; the state is all that a runner remembers. -/
abbrev Runner (σ : Type) := Call → σ → Disk → Reply × σ × Disk

/-- A call that the program judged to have failed. -/
structure Failure where
  arguments : List String
  status : Status
  complaint : Option String
deriving DecidableEq, Repr

namespace Status

def signalNames : List (Nat × String) := [
  (1, "SIGHUP"), (2, "SIGINT"), (3, "SIGQUIT"), (4, "SIGILL"), (5, "SIGTRAP"), (6, "SIGABRT"),
  (7, "SIGBUS"), (8, "SIGFPE"), (9, "SIGKILL"), (10, "SIGUSR1"), (11, "SIGSEGV"), (12, "SIGUSR2"),
  (13, "SIGPIPE"), (14, "SIGALRM"), (15, "SIGTERM"), (16, "SIGSTKFLT"), (17, "SIGCHLD"),
  (18, "SIGCONT"), (19, "SIGSTOP"), (20, "SIGTSTP"), (21, "SIGTTIN"), (22, "SIGTTOU"),
  (23, "SIGURG"), (24, "SIGXCPU"), (25, "SIGXFSZ"), (26, "SIGVTALRM"), (27, "SIGPROF"),
  (28, "SIGWINCH"), (29, "SIGIO"), (30, "SIGPWR"), (31, "SIGSYS"), (34, "SIGRTMIN"),
  (64, "SIGRTMAX")]

def describe : Status → String
  | .code n => "returned non-zero exit status " ++ toString n ++ "."
  | .signal n =>
      match signalNames.lookup n with
      | some name => "died with <Signals." ++ name ++ ": " ++ toString n ++ ">."
      | none => "died with unknown signal " ++ toString n ++ "."

end Status

/-- The program's own complaint if it made one, else how it ended. -/
def Failure.message (f : Failure) : String :=
  let complaint := Blank.trimString (f.complaint.getD "")
  let detail :=
    if complaint.isEmpty then
      "Command '" ++ Quoted.ofStrings f.arguments ++ "' " ++ f.status.describe
    else complaint
  " ".intercalate f.arguments ++ " failed: " ++ detail

end InlineProject.Git
