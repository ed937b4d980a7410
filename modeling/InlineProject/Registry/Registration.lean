import InlineProject.Descriptor.Project
import InlineProject.World
import InlineProject.Xml.Encoding
/-!
Projects come into the registry and leave it. A project is registered only if its file can be read
and describes a project; the file of the registry is written after every change.
-/

namespace InlineProject.Registry

variable {σ : Type}

def part : String := "workspace"

/-- The registry of the run becomes another one, and its file is written if it has to be. -/
def keep (r : Registry) : Action σ Unit := do
  modify fun w => { w with registry := r }
  let kept ← Action.onDisk r.persist
  modify fun w => { w with registry := kept }

def find (name : String) : Action σ (Option RegisteredProject) := do
  return (← get).registry.find? (Text.ofString name)

/-- Takes a project out; tells whether it was there. -/
def release (name : String) : Action σ Bool := do
  let (removed, r) := (← get).registry.remove (Text.ofString name)
  if removed then
    Action.note .info part ("Removing " ++ name ++ " from workspace")
    keep r
  return removed

/-- What a file turns out to be. -/
inductive Opening where
  | project
  | otherMarkup
  | unreadable (reason : String)
deriving DecidableEq

def openingOf (content : ByteArray) : Except Failure Opening :=
  match Xml.parseBytes content with
  | .ok root => .ok (if root.label = Project.rootLabel then .project else .otherMarkup)
  | .error .malformed => .ok (.unreadable "not well-formed")
  | .error (.unknownEncoding name) => .error (.markupEncoding name)
  | .error .manyBytes => .error .manyBytes

/-- Reads a project file; that the system does not give it is no failure. -/
def openProject (file : Path) : Action σ Opening := do
  match (DiskAction.read file).run.run (← get).disk with
  | (.ok content, _) =>
      match openingOf content with
      | .ok opening => return opening
      | .error e => Action.fail e
  | (.error e, _) => return .unreadable e.message

/-- Registers a project under the name of its file, which is made by default if it is missing. Tells
whether the project was refused. -/
def register (file : Path) (defaultXml : String) : Action σ Bool := do
  if !(← Action.onDisk (DiskAction.pathExists file)) then
    Action.onDisk (DiskAction.write file (defaultXml ++ "\n").toUTF8)
  match ← openProject file with
  | .unreadable reason => do
      Action.note .warning part ("Could not open project " ++ file.toString ++ ": " ++ reason)
      return true
  | .otherMarkup => do
      Action.note .warning part (file.toString ++ " is not a project file")
      return true
  | .project => do
      let w ← get
      let (_, r) := w.registry.put (Text.ofString file.stem) file.toString w.now
      keep r
      Action.note .info part ("Added project to workspace: " ++ file.toString)
      Action.note .debug part
        ("Workspace now holds " ++ toString r.entries.length ++ " project(s)")
      return false

end InlineProject.Registry
