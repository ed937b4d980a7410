import InlineProject.Machine.Run
import InlineProject.Text.Lines
/-!
Starting programs of a machine: a runner that knows no version control, but all its tools. Both of
what a program writes have to be text, whether anybody asks for it or not.
-/

namespace InlineProject.Git.Launcher

/-- How far scripts can start each other. -/
def scriptDepth : Nat := 16

/-- The text of some bytes, with one kind of line breaks. -/
def textOf (bytes : Machine.Bytes) : Except Utf8.Failure String :=
  (Utf8.decode ⟨bytes.toArray⟩).map Lines.unifyBreaksString

def judge (capture : Bool) (f : Machine.Finished) : Reply :=
  match textOf f.output, textOf f.complaint with
  | .error e, _ => .unreadable e
  | _, .error e => .unreadable e
  | .ok output, .ok complaint =>
      if f.status = .code 0 then .output (if capture then output else "")
      else .failed f.status (some complaint)

/-- Why no program starts in a directory. -/
def directoryFault? (d : Disk) (p : Path) : Option FileCause :=
  match d.locate p with
  | .error cause => some cause
  | .ok place =>
      match d.item? place with
      | some .directory => none
      | some (.file _) => some .notDirectory
      | none => some .notFound

/-- Why there is no program of a name. What is on the disk cannot be started. -/
def programFault (d : Disk) (directory : Path) (program : String) : FileCause :=
  if program.isEmpty then .notPermitted
  else if program.toList.contains '/' then
    match d.locate (directory.join program) with
    | .error cause => cause
    | .ok place => if (d.item? place).isSome then .notPermitted else .notFound
  else .notFound

def start (c : Call) (d : Disk) : Reply :=
  if c.arguments.any fun a => a.toList.contains '\x00' then
    .unavailable ⟨.nullCharacter, c.directory.toString⟩
  else
    match directoryFault? d c.directory, c.arguments with
    | some cause, _ => .unavailable ⟨cause, c.directory.toString⟩
    | none, [] => .unavailable ⟨.notFound, ""⟩
    | none, program :: arguments =>
        match Machine.run? scriptDepth false ⟨d, c.directory, []⟩ program arguments with
        | some f => judge c.capture f
        | none => .unavailable ⟨programFault d c.directory program, program⟩

/-- The runner of a machine without version control. -/
def runner : Runner Unit := fun c s d => (start c d, s, d)

end InlineProject.Git.Launcher
