import InlineProject.Git.Repository
import InlineProject.Source.Unit
/-!
The directory of a project: a repository without changes of its own, into which the files of the
project are written. Every file is staged as soon as it is written.
-/

namespace InlineProject

structure Scaffold where
  identity : Git.Identity
  -- The suffix of the project file.
  extension : String
  initialMessage : String
deriving DecidableEq, Repr

namespace Scaffold

variable {σ : Type}

def part : String := "scaffolder"

def create (s : Scaffold) (directory : Path) : Action σ Git.Repository :=
  Git.Repository.create directory s.identity s.initialMessage

/-- A repository whose files are those of its last commit. What is in a directory that is no
repository yet stays there. -/
def prepare (s : Scaffold) (directory : Path) : Action σ Git.Repository := do
  if !(← Action.onDisk (DiskAction.pathExists directory)) then
    Action.onDisk (DiskAction.makeDirectories false directory)
    Action.note .info part ("Created project directory " ++ directory.toString)
    s.create directory
  else if !(← Action.onDisk (Git.existsAt directory)) then
    Action.note .info part
      ("Initializing repository in existing directory " ++ directory.toString)
    s.create directory
  else
    let r : Git.Repository := ⟨directory⟩
    if ← r.isDirty then
      Action.note .info part ("Resetting dirty working tree in " ++ directory.toString)
      r.restore
    return r

/-- Writes a file and takes it into the next commit. -/
def writeStaged (r : Git.Repository) (file : Path) (content : String) : Action σ Unit := do
  Action.onDisk (DiskAction.write file content.toUTF8)
  r.stage file

/-- Writes the project file. -/
def writeProjectFile (s : Scaffold) (r : Git.Repository) (directory : Path) (name xml : String) :
    Action σ Path := do
  let file := directory.join (name ++ s.extension)
  writeStaged r file xml
  Action.note .info part ("Created project file: " ++ file.toString)
  return file

/-! ### Sources -/

def splitterPart : String := "splitter"

def writerPart : String := "writer"

/-- What is written for the using directives of a file. -/
def usingsText (u : Source.Unit) : String := "\n".intercalate (u.distinctUsings.map (·.asGlobal))

def noteUsings : List Source.Node → Action σ Unit
  | [] => pure ()
  | n :: rest => do
      Action.note .debug splitterPart ("Using directive: [" ++ n.code ++ "]")
      noteUsings rest

/-- Moves the using directives of a file, if it has any, to one for the whole project. -/
def splitUsings (r : Git.Repository) (directory : Path) (stem suffix : String) (u : Source.Unit) :
    Action σ Source.Unit := do
  let directives := u.distinctUsings
  if directives.isEmpty then return u
  else
    noteUsings directives
    let file := directory.join (stem ++ suffix)
    writeStaged r file (usingsText u)
    Action.note .info splitterPart ("Created global usings at " ++ file.toString ++ " ("
      ++ toString directives.length ++ " directives)")
    return u.without u.usings

def writeSource (r : Git.Repository) (directory : Path) (name : String) (u : Source.Unit) :
    Action σ Path := do
  let file := directory.join name
  writeStaged r file u.fullText
  Action.note .debug writerPart
    ("Wrote " ++ toString u.fullText.length ++ " characters to " ++ file.name)
  return file

def readmeName : String := "README.md"

def writeReadme (r : Git.Repository) (directory : Path) (content : String) : Action σ Path := do
  let file := directory.join readmeName
  writeStaged r file content
  return file

end Scaffold
end InlineProject
