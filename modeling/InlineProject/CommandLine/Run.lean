import InlineProject.CommandLine.Options
import InlineProject.Expansion
/-!
Carrying out a command line: what is told on standard output, and how the run ends. Faults of the
user end it before anything is expanded.
-/

namespace InlineProject.CommandLine

/-- How a run ends that is not cut short by a failure. -/
inductive Ending where
  | done (output : String)
  -- The user is told on standard error what is wrong.
  | refused (complaint : String)
deriving DecidableEq, Repr

namespace Run

variable {σ : Type}

/-- An option that is given and not empty, as a path. -/
def pathOf (value : Option String) : Option Path :=
  (value.filter fun s => !s.isEmpty).map Path.ofString

/-- A path as the user sees it: from the current directory on, if it lies below. -/
def shown (here p : Path) : String :=
  match (p.resolve here).relativeTo? here with
  | some short => short.toString
  | none => p.toString

def describe (here p : Path) (o : Outcome) : String :=
  if !o.handled then "Nothing to do in " ++ shown here p
  else
    match o.commit with
    | none => "Expanded " ++ shown here p ++ " (no project)"
    | some c => "Expanded " ++ shown here p ++ " (commit " ++ c.shortSha ++ ")"

/-- The paths at which there is nothing. -/
def missing (here : Path) : List String → Action σ (List String)
  | [] => return []
  | s :: rest => do
      let present ← Action.onDisk (DiskAction.pathExists (here.join s))
      let others ← missing here rest
      return if present then others else s :: others

/-- Takes up the registry that a file keeps. -/
def openRegistry (file : Option Path) : Action σ Unit := do
  match Registry.load (← get).disk file with
  | .ok r => modify fun w => { w with registry := r }
  | .error e => Action.fail (.ofLoad e)

/-- Expands the paths and tells what came of each. -/
def expand (here : Path) (o : Options) (c : Configuration) : Action σ String := do
  let given := (pathOf o.registry).map fun p => here ++ p
  openRegistry (given.or c.registryFile)
  let e : Expansion := ⟨c, here⟩
  let outcomes ← e.processPaths (o.paths.map Path.ofString) (pathOf o.output)
  return String.join (outcomes.map fun (p, outcome) => describe here p outcome ++ "\n")

/-- Ends a run by a complaint. -/
def refuse (complaint : String) : Action σ Ending := do
  modify fun w => { w with console := (complaint ++ "\n") :: w.console }
  return .refused complaint

/-- Carries out a command line that was understood. -/
def command (here : Path) (o : Options) : Action σ Ending := do
  Action.openJournal o.verbose ((pathOf o.journal).map fun p => p.resolve here)
  match Configuration.load (← get).disk here (Path.ofString o.config) with
  | .error (.complaint c) => refuse c.message
  | .error (.failure e) => Action.fail e
  | .ok c => do
      let gone ← missing here o.paths
      if gone.isEmpty then return .done (← expand here o c)
      else refuse ("Path not found: " ++ ", ".intercalate gone)

end Run
end InlineProject.CommandLine
