import InlineProject.CommandLine.Run
import InlineProject.Git.Launcher
/-!
The program. It takes a picture of the files that a run may touch, carries the run out on the picture,
and writes what has changed back to the disk. No other program is started: version control answers
as it does on a machine that does not have it.
-/

namespace InlineProject.Main

/-- Takes a place with all that is in it into a picture. Links and the inside of repositories are left
out. -/
partial def take (place : Place) (d : Disk) : IO Disk := do
  let here ← IO.currentDir
  let path := here / ("/" ++ "/".intercalate place)
  let kind ← try
      pure (some (← path.symlinkMetadata).type)
    catch _ => pure none
  match kind with
  | some .file => return d.put place (.file (← IO.FS.readBinFile path))
  | some .dir =>
      let d := if place.isEmpty then d else d.put place .directory
      if place.getLast? = some Git.metadataName then return d
      else
        let mut taken := d
        for entry in ← path.readDir do
          taken ← take (place ++ [entry.fileName]) taken
        return taken
  | _ => return d

/-- The directories that lead to a place. -/
def above (place : Place) (d : Disk) : Disk :=
  (List.range place.length).foldl (fun d n =>
    let p := place.take n
    if p.isEmpty || (d.item? p).isSome then d else d.put p .directory) d

/-- The places that a run may touch: the current directory, what the options name, and where named
files lie. -/
def places (here : Path) (o : CommandLine.Options) : List Place :=
  let named := o.paths ++ o.output.toList ++ [o.config] ++ o.registry.toList ++ o.journal.toList
  let outside := (named.map fun s => ((Path.ofString s).resolve here).parts).filter fun p =>
    !here.parts.isPrefixOf p
  here.parts :: outside.map fun p => p.dropLast

/-- The time by which the system stamps a new file. -/
def now : IO DateTime := do
  let (_, path) ← IO.FS.createTempFile
  let stamp := (← path.metadata).modified
  IO.FS.removeFile path
  return DateTime.ofSystemTime stamp.sec.toNat (stamp.nsec.toNat / 1000)

/-- Writes what a run has changed. -/
def writeBack (before after : Disk) : IO Unit := do
  let here ← IO.currentDir
  for (place, item) in after.items do
    if before.item? place != some item then
      let path := here / ("/" ++ "/".intercalate place)
      match item with
      | .directory => IO.FS.createDirAll path
      | .file content => IO.FS.writeBinFile path content

def carryOut (o : CommandLine.Options) : IO UInt32 := do
  let here := Path.ofString (← IO.currentDir).toString
  let mut disk := Disk.empty
  for place in places here o do
    disk ← take place (above place disk)
  let world : World Unit := {
    disk := disk
    now := ← now
    git := ()
    calls := []
    journal := none
    console := []
    registry := Registry.empty none }
  let (ending, after) := (CommandLine.Run.command here o).run Git.Launcher.runner world
  writeBack disk after.disk
  IO.eprint (String.join after.console.reverse)
  match ending with
  | .ok (.done output) => do
      IO.print output
      return 0
  | .ok (.refused _) => return 1
  | .error e => do
      IO.eprintln e.message
      return 1

end InlineProject.Main

def main (arguments : List String) : IO UInt32 := do
  match InlineProject.CommandLine.Options.ofArguments arguments with
  | .ok o => InlineProject.Main.carryOut o
  | .error .help => do
      IO.print InlineProject.CommandLine.Options.usage
      return 0
  | .error _ => do
      IO.eprint InlineProject.CommandLine.Options.usage
      return 2
