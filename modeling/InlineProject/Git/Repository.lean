import InlineProject.Outcome
import InlineProject.Text.Lines
import InlineProject.World
/-!
The repository of a project. Every commit names the same person as author and committer and is not
signed, so that it does not depend on whose machine it is made on.
-/

namespace InlineProject.Git

/-- The directory that makes a directory a repository. -/
def metadataName : String := ".git"

def program : String := "git"

def existsAt (p : Path) : DiskAction Bool := DiskAction.pathExists (p.join metadataName)

/-- Calls that are made in a repository; it is named by its directory. -/
structure Repository where
  directory : Path
deriving DecidableEq, Repr

namespace Repository

variable {σ : Type}

def command (r : Repository) (arguments : List String) : Action σ Unit := do
  let _ ← Action.callGit ⟨program :: arguments, r.directory, none, false⟩

def query (r : Repository) (arguments : List String) : Action σ String :=
  Action.callGit ⟨program :: arguments, r.directory, none, true⟩

/-- Whether anything in the directory differs from the last commit. -/
def isDirty (r : Repository) : Action σ Bool := do
  return !Blank.isBlankText (← r.query ["status", "--porcelain"]).toList

/-- Discards changes and new files. -/
def restore (r : Repository) : Action σ Unit := do
  r.command ["reset", "--hard", "--quiet", "HEAD"]
  r.command ["clean", "-fd", "--quiet"]

def root : Path := ⟨.root, []⟩

/-- The way to a file from the directory of the repository; a relative path starts there. -/
def relative? (r : Repository) (file : Path) : Option Path :=
  if file.hasNull then none
  else ((r.directory ++ file).resolve root).relativeTo? (r.directory.resolve root)

/-- Takes a file into the next commit. -/
def stage (r : Repository) (file : Path) : Action σ Unit :=
  match r.relative? file with
  | some p => r.command ["add", "--", p.toString]
  | none => Action.fail (.outside (r.directory.resolve root))

/-- The files that the next commit would change. -/
def staged (r : Repository) : Action σ (List String) := do
  let listing ← r.query ["diff", "--cached", "--name-only"]
  let names := (Lines.split listing.toList).map fun line => String.ofList (Blank.trim line)
  return names.filter fun name => !name.isEmpty

/-- The last commit. -/
def head (r : Repository) : Action σ Commit := do
  let sha := Blank.trimString (← r.query ["rev-parse", "HEAD"])
  let message := Blank.trimString (← r.query ["log", "-1", "--format=%B", sha])
  return ⟨sha, message⟩

def commitArguments (message : String) (allowEmpty : Bool) : List String :=
  [program, "-c", "commit.gpgsign=false", "commit", "--quiet", "--no-verify", "-m", message]
    ++ if allowEmpty then ["--allow-empty"] else []

def commit (r : Repository) (message : String) (identity : Identity) (allowEmpty : Bool) :
    Action σ Commit := do
  let _ ← Action.callGit ⟨commitArguments message allowEmpty, r.directory, some identity, false⟩
  r.head

/-- Makes a directory a repository with an empty first commit. -/
def create (directory : Path) (identity : Identity) (message : String) : Action σ Repository := do
  let r : Repository := ⟨directory⟩
  r.command ["-c", "init.defaultBranch=main", "init", "--quiet"]
  let _ ← r.commit message identity true
  return r

/-- How many commits lead to the last one; an empty answer counts as none. -/
def commitCount (r : Repository) : Action σ Int := do
  let count := Blank.trimString (← r.query ["rev-list", "--count", "HEAD"])
  if count.isEmpty then return 0
  else
    match Integer.readString 10 count with
    | .ok n => return n
    | .error e => Action.fail (.number e)

def part : String := "committer"

/-- Commits what is staged. Where nothing is, the last commit stays the last. -/
def commitStaged (r : Repository) (identity : Identity) (message : String) : Action σ Commit := do
  let files ← r.staged
  if files.isEmpty then
    let last ← r.head
    Action.note .info part
      ("No changes in " ++ r.directory.toString ++ "; keeping " ++ last.shortSha)
    return last
  else
    let made ← r.commit message identity false
    Action.note .info part ("Committed " ++ toString files.length ++ " file(s) to "
      ++ r.directory.toString ++ " as " ++ made.shortSha)
    return made

end Repository
end InlineProject.Git
