import InlineProject.Disk.Action
import InlineProject.Failure
import InlineProject.Journal
/-!
The world of a run: the disk, the clock, the version control program, the journal and the registry.
An action may fail; what it has done up to there stays done.
-/

namespace InlineProject

structure World (σ : Type) where
  disk : Disk
  now : DateTime
  -- What the runner of the version control program remembers.
  git : σ
  -- All its calls so far, the last one first.
  calls : List Git.Call
  journal : Option Journal
  -- What has been told on standard error, line by line, the last line first.
  console : List String
  registry : Registry

abbrev Action (σ α : Type) :=
  ReaderT (Git.Runner σ) (ExceptT Failure (StateM (World σ))) α

namespace Action

variable {σ α : Type}

def run (a : Action σ α) (runner : Git.Runner σ) (w : World σ) : Except Failure α × World σ :=
  StateT.run (ExceptT.run (ReaderT.run a runner)) w

def fail (e : Failure) : Action σ α := throw e

def onDisk (a : DiskAction α) : Action σ α := do
  let w ← get
  let (result, disk) := StateT.run (ExceptT.run a) w.disk
  set { w with disk := disk }
  match result with
  | .ok a => return a
  | .error e => fail (.file e)

/-- What a note adds to the file of the journal; a file that has gone takes no more notes. -/
def appendNote (line : String) (p : Path) (d : Disk) : Disk :=
  match d.locate p with
  | .ok place =>
      match d.item? place with
      | some (.file content) => d.put place (.file (content ++ line.toUTF8))
      | _ => d
  | .error _ => d

def hear (n : Note) (w : World σ) : World σ :=
  match w.journal with
  | none => w
  | some j =>
      if j.hears n then
        let disk := match j.file with
          | some p => appendNote (n.fileLine w.now) p w.disk
          | none => w.disk
        { w with disk := disk, console := n.consoleLine :: w.console }
      else w

def note (level : Level) (part message : String) : Action σ Unit :=
  modify (hear ⟨level, part, message⟩)

/-- Sets the journal up anew; its file is made at once. -/
def openJournal (verbose : Bool) (file : Option Path) : Action σ Unit := do
  match file with
  | some p => onDisk (DiskAction.touch p)
  | none => pure ()
  modify fun w => { w with journal := some ⟨Journal.thresholdFor verbose, file⟩ }

/-- Calls the version control program in a directory. -/
def callGit (c : Git.Call) : Action σ String := do
  let runner ← read
  let w ← get
  let (reply, git, disk) := runner c w.git w.disk
  set { w with git := git, disk := disk, calls := c :: w.calls }
  match reply with
  | .output text => return text
  | .failed status complaint => fail (.git ⟨c.arguments, status, complaint⟩)
  | .unavailable e => fail (.file e)
  | .unreadable e => fail (.encoding e)

end Action
end InlineProject
