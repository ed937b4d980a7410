import InlineProject.Configuration
import InlineProject.Descriptor.Comment
import InlineProject.Descriptor.Normalize
import InlineProject.Registry.Registration
import InlineProject.Scaffold
import InlineProject.Source.Directive
/-!
The expansion of source files. The first descriptor in a file becomes a project in a directory of
its own, with the project file, the source without the descriptor, and a commit of it all.
-/

namespace InlineProject

structure Expansion where
  configuration : Configuration
  -- The directory that relative paths start from.
  here : Path

namespace Expansion

variable {σ : Type}

def part : String := "expander"

def normalizerPart : String := "normalizer"

def normalizer (e : Expansion) : Normalizer :=
  ⟨e.configuration.project.defaultXml, e.configuration.mode⟩

def scaffold (e : Expansion) : Scaffold :=
  ⟨e.configuration.commits.identity, e.configuration.project.extension,
    e.configuration.commits.initialMessage⟩

/-- The markup of the project that a comment describes. -/
def projectXml (e : Expansion) (comment : Source.Node) : Action σ String := do
  match e.normalizer.read (Descriptor.ofComment comment.text).toList with
  | .error cause => Action.fail (.descriptor cause)
  | .ok reading => do
      match reading.note? with
      | some message => Action.note .debug normalizerPart message
      | none => pure ()
      return reading.xml e.normalizer

/-- A project of the same name from an earlier run gives way. -/
def evict (name : String) : Action σ Unit := do
  if (← Registry.find name).isSome then
    let _ ← Registry.release name

/-- Writes the source, registers the project and commits it all. A project that the registry refuses
is not committed. -/
def deliver (e : Expansion) (source directory : Path) (r : Git.Repository) (projectFile : Path)
    (u : Source.Unit) : Action σ Outcome := do
  let settings := e.configuration.project
  let file ← Scaffold.writeSource r directory source.name u
  Action.note .info part ("Wrote source to " ++ file.toString)
  if ← Registry.register projectFile settings.defaultXml then return .withoutProject
  else
    let _ ← Scaffold.writeReadme r directory settings.readme
    let commits := e.configuration.commits
    return .committed (← r.commitStaged commits.identity commits.message)

/-- Fills the directory of a project. -/
def build (e : Expansion) (source directory : Path) (xml : String) (u : Source.Unit) :
    Action σ Outcome := do
  let r ← e.scaffold.prepare directory
  let projectFile ← e.scaffold.writeProjectFile r directory source.stem xml
  let u ← Scaffold.splitUsings r directory e.configuration.project.globalUsings source.suffix u
  e.deliver source directory r projectFile u

/-- Expands one comment into a directory below the output. -/
def expandComment (e : Expansion) (source output : Path) (u : Source.Unit) (comment : Source.Node) :
    Action σ Outcome := do
  let u := u.without [comment]
  let xml ← e.projectXml comment
  if xml.isEmpty then
    Action.note .info part (source.name ++ " has a documentation comment but no descriptor")
    return .withoutProject
  else
    let directory := output.join source.stem
    Action.note .info part ("Expanding project directory: " ++ directory.toString)
    evict source.stem
    e.build source directory xml u

/-- Expands one comment; failures of the system and of the version control program are noted and
leave nothing to be done. -/
def processComment (e : Expansion) (source output : Path) (u : Source.Unit)
    (comment : Source.Node) : Action σ Outcome :=
  tryCatch (e.expandComment source output u comment) fun failure => do
    if failure.isTransient then
      Action.note .error part
        ("Expansion of " ++ source.toString ++ " failed: " ++ failure.message)
      return .nothing
    else Action.fail failure

/-- Where projects go: as asked for, as configured, or beside the source. -/
def outputFor (e : Expansion) (source : Path) (asked : Option Path) : Action σ Path :=
  match asked with
  | some p => Action.onDisk (DiskAction.resolve e.here p)
  | none => return e.configuration.output.getD source.parent

/-- The text of a source file, or why there is none. -/
def textAt (d : Disk) (source : Path) : Except String String :=
  match (DiskAction.read source).run.run d with
  | (.error e, _) => .error e.message
  | (.ok content, _) => (Utf8.decode content).mapError fun e => e.message

def processUnit (e : Expansion) (source : Path) (u : Source.Unit) (asked : Option Path) :
    Action σ Outcome := do
  let output ← e.outputFor source asked
  let outcome ← Descriptor.extract u (e.processComment source output u)
  if outcome.handled then Action.note .info part ("Processed " ++ source.toString)
  else Action.note .info part ("Nothing to do in " ++ source.toString)
  return outcome

/-- Expands the first descriptor in a file that a parser cuts into parts. -/
def processFileBy (parse : String → Source.Unit) (e : Expansion) (file : Path)
    (asked : Option Path) : Action σ Outcome := do
  let source ← Action.onDisk (DiskAction.resolve e.here file)
  Action.note .info part ("Processing " ++ source.toString)
  match textAt (← get).disk source with
  | .error reason => do
      Action.note .warning part ("Could not read " ++ source.toString ++ ": " ++ reason)
      return .nothing
  | .ok text =>
      if text.isEmpty then
        Action.note .info part (source.toString ++ " is empty")
        return .nothing
      else e.processUnit source (parse text) asked

/-- Expands the first descriptor in a file. -/
def processFile (e : Expansion) (file : Path) (asked : Option Path) : Action σ Outcome :=
  e.processFileBy Source.Unit.ofString file asked

/-! ### Many files -/

-- A file that comes again keeps its position.
def putOutcome (file : Path) (outcome : Outcome) : List (Path × Outcome) → List (Path × Outcome)
  | [] => [(file, outcome)]
  | (other, old) :: rest =>
      if other = file then (file, outcome) :: rest
      else (other, old) :: putOutcome file outcome rest

def processFiles (e : Expansion) (asked : Option Path) :
    List Path → List (Path × Outcome) → Action σ (List (Path × Outcome))
  | [], done => return done
  | file :: rest, done => do
      let outcome ← e.processFile file asked
      processFiles e asked rest (putOutcome file outcome done)

/-- The files that a path stands for: a directory is searched. -/
def filesAt (e : Expansion) (p : Path) : Action σ (List Path) := do
  if ← Action.onDisk (DiskAction.isDirectory (e.here ++ p)) then
    match Scan.run (← get).disk (p.resolve e.here) e.configuration.suffixes with
    | .ok files => return files
    | .error cause => Action.fail (.scan cause)
  else return [p]

def processFrom (e : Expansion) (asked : Option Path) :
    List Path → List (Path × Outcome) → Action σ (List (Path × Outcome))
  | [], done => return done
  | p :: rest, done => do
      let files ← e.filesAt p
      let done ← e.processFiles asked files done
      processFrom e asked rest done

/-- Expands files one after another, and what comes of each. -/
def processPaths (e : Expansion) (paths : List Path) (asked : Option Path) :
    Action σ (List (Path × Outcome)) :=
  e.processFrom asked paths []

end Expansion
end InlineProject
