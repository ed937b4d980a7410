import InlineProject.Proofs.ActionEnds
import InlineProject.Proofs.RegistryFile
/-!
Calls on a registry that is kept in a file. As long as no write of the file is owed, whoever loads the file finds
what the registry holds; a write is owed only after a call that has failed.
-/

namespace InlineProject.Registry

open InlineProject.Action
open InlineProject.DiskAction (Grown OnWay Writable makeDirectories_grown run_pathExists write_cases write_parts)

variable {σ α β : Type} {runner : Git.Runner σ} {store file : Path} {start w middle w' : World σ}
  {r r' : Registry} {d d' : Disk}

/-! ### Calls -/

-- What is asked of a registry.
inductive Request where
  | register (file : Path) (xml : String)
  | remove (name : String)
  | find (name : String)

inductive Answer where
  | refused (refused : Bool)
  | removed (removed : Bool)
  | found (project : Option RegisteredProject)
deriving DecidableEq

-- Whether the call behind an answer has written the file.
def Answer.wrote : Answer → Bool
  | .refused was => !was
  | .removed was => was
  | .found _ => false

def Request.perform : Request → Action σ Answer
  | .register file xml => return .refused (← Registry.register file xml)
  | .remove name => return .removed (← release name)
  | .find name => return .found (← Registry.find name)

-- Nobody registers the file of the registry itself.
def Request.Beside (store : Path) : Request → Prop
  | .register file _ => file.place ≠ store.place
  | .remove _ => True
  | .find _ => True

-- Whether the file is up to date after a call: a call that fails may owe a write, which a later one makes up for.
def verdict (intact : Bool) : Except Failure Answer × World σ → Bool
  | (.ok answer, _) => intact || answer.wrote
  | (.error _, after) => intact && !after.registry.changed

-- A row of calls. Meanwhile time goes on and the disk changes elsewhere, but nobody else touches the file.
inductive Session (runner : Git.Runner σ) (store : Path) (start : World σ) : Bool → World σ → Prop where
  | start : Session runner store start true start
  | call {intact : Bool} {w : World σ} (session : Session runner store start intact w) (request : Request)
      (beside : request.Beside store) :
      Session runner store start (verdict intact (request.perform.run runner w))
        (request.perform.run runner w).2
  | meanwhile {intact : Bool} {w : World σ} (session : Session runner store start intact w) (now : DateTime)
      (disk : Disk) (same : disk.content? store = w.disk.content? store) :
      Session runner store start intact { w with now := now, disk := disk }

/-! ### What holds all along -/

-- The registry is in order, its file is its own, and what is not owed has been written.
structure Current (store : Path) (w : World σ) : Prop where
  clean : store.hasNull = false
  path : w.registry.path = some store
  proper : Proper w.registry.entries
  aside : ∀ j p, w.journal = some j → j.file = some p → p.place ≠ store.place
  saved : w.registry.changed = false →
    ∃ fresh, load w.disk (some store) = .ok fresh ∧ fresh.entries.Perm w.registry.entries

theorem load_congr (clean : store.hasNull = false) (same : d'.content? store = d.content? store) :
    load d' (some store) = load d (some store) := by
  rw [load_exact clean, load_exact clean, same]

theorem Current.congr (current : Current store w) (registry : w'.registry = w.registry)
    (journal : w'.journal = w.journal) (content : w'.disk.content? store = w.disk.content? store) :
    Current store w' := by
  refine ⟨current.clean, ?_, ?_, ?_, ?_⟩
  · rw [registry]
    exact current.path
  · rw [registry]
    exact current.proper
  · rw [journal]
    exact current.aside
  · rw [registry, load_congr current.clean content]
    exact current.saved

theorem Current.hear (current : Current store w) {n : Note} : Current store (Action.hear n w) := by
  refine current.congr hear_registry hear_journal ?_
  rcases hear_cases (n := n) (w := w) with still | ⟨j, p, old, content, heard, filed, there, written⟩
  · rw [still]
  · rw [written, Disk.content?_put (by rw [there]; nofun) (Ne.symm (current.aside j p heard filed))]

/-! ### Actions -/

-- However an action ends the registry is in order; of what it gives where it ends well something is known.
abbrev Keeps (runner : Git.Runner σ) (store : Path) (w : World σ) (good : α → World σ → Prop)
    (a : Action σ α) : Prop :=
  Leads runner w (fun x w' => Current store w' ∧ good x w') (fun _ w' => Current store w') a

theorem putIn_eq {name : Text} {project : RegisteredProject} {entries : List (Text × RegisteredProject)} :
    putIn name project entries = Json.setEntry name project entries := by
  induction entries with
  | nil => rfl
  | cons entry rest ih =>
    unfold putIn Json.setEntry
    rw [ih]

theorem remove_changed {name : Text} (removed : (r.remove name).1 = true) :
    (r.remove name).2.changed = true := by
  unfold remove at removed ⊢
  split at removed
  · rename_i there
    rw [if_pos there]
  · cases removed

/-! ### What a call keeps -/

end InlineProject.Registry
