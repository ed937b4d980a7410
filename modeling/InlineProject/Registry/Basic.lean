import InlineProject.Calendar
import InlineProject.Json.Printer
import InlineProject.Path
/-!
The registry of projects, one for each name. Changes are noted, so that only a registry that has
changed since it was written or read has to be written.
-/

namespace InlineProject

structure RegisteredProject where
  name : Text
  projectFile : Text
  registeredAt : Text
deriving DecidableEq, Inhabited

structure Registry where
  -- The file that keeps the registry; without one it lives no longer than the run.
  path : Option Path
  -- In the order in which the names came.
  entries : List (Text × RegisteredProject)
  changed : Bool
deriving Inhabited

namespace Registry

def empty (path : Option Path) : Registry := ⟨path, [], false⟩

def find? (r : Registry) (name : Text) : Option RegisteredProject :=
  (r.entries.find? fun (other, _) => other = name).map (·.2)

/-- All projects, sorted by name. -/
def all (r : Registry) : List RegisteredProject := (Json.sortFields r.entries).map (·.2)

-- A name that is there keeps its position.
def putIn (name : Text) (project : RegisteredProject) :
    List (Text × RegisteredProject) → List (Text × RegisteredProject)
  | [] => [(name, project)]
  | (other, old) :: rest =>
      if other = name then (name, project) :: rest else (other, old) :: putIn name project rest

/-- The moment of a registration, in universal time. -/
def momentText (now : DateTime) : Text := Text.ofString (now.textWith "T" ++ "Z")

def put (r : Registry) (name : Text) (projectFile : String) (now : DateTime) :
    RegisteredProject × Registry :=
  let project : RegisteredProject := ⟨name, Text.ofString projectFile, momentText now⟩
  (project, { r with entries := putIn name project r.entries, changed := true })

/-- Takes a name out; tells whether it was there. -/
def remove (r : Registry) (name : Text) : Bool × Registry :=
  if (r.find? name).isSome then
    (true, { r with entries := r.entries.filter fun (other, _) => other ≠ name, changed := true })
  else (false, r)

theorem find?_putIn (name other : Text) (project : RegisteredProject)
    (entries : List (Text × RegisteredProject)) :
    ((putIn name project entries).find? fun (key, _) => key = other).map (·.2)
      = if name = other then some project
        else (entries.find? fun (key, _) => key = other).map (·.2) := by
  induction entries with
  | nil => by_cases h : name = other <;> simp [putIn, h]
  | cons entry rest ih =>
      obtain ⟨key, old⟩ := entry
      by_cases same : key = name
      · subst same
        by_cases h : key = other <;> simp [putIn, h]
      · by_cases h : key = other
        · subst h
          simp [putIn, same, Ne.symm same]
        · simp [putIn, same, h, ih]

/-- A name that was put is found; all other names are as before. -/
theorem find?_put (r : Registry) (name other : Text) (projectFile : String) (now : DateTime) :
    (r.put name projectFile now).2.find? other
      = if name = other then some (r.put name projectFile now).1 else r.find? other := by
  simp [find?, put, find?_putIn]

end Registry
end InlineProject
