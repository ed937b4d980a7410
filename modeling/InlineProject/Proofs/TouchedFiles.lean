import InlineProject.Proofs.RegistryRun
/-!
Which files an action touches, whether it ends well or fails. The journal and the registry are written where
they are kept; every other file that changes lies where the action may reach.
-/

namespace InlineProject

variable {σ α β : Type}

-- What the file at a place holds.
def Disk.file? (d : Disk) (q : Place) : Option ByteArray :=
  match d.item? q with
  | some (.file content) => some content
  | _ => none

-- Where a world keeps its journal and its registry.
def World.Outlet (w : World σ) (q : Place) : Prop :=
  (∃ j p, w.journal = some j ∧ j.file = some p ∧ q = p.place) ∨
    ∃ p, w.registry.path = some p ∧ q = p.place

/-! ### Single steps on the disk -/

section

open InlineProject.DiskAction

variable {p : Path} {q : Place} {d d' : Disk} {content : ByteArray}

theorem Disk.file?_congr (same : d'.item? q = d.item? q) : d'.file? q = d.file? q := by
  unfold Disk.file?
  rw [same]

theorem Disk.file?_some : d.file? q = some content ↔ d.item? q = some (.file content) := by
  unfold Disk.file?
  rcases d.item? q with _ | _ | _ <;> simp

theorem Disk.file?_put {place : Place} {item : Item} (inside : place ≠ []) (other : q ≠ place) :
    (d.put place item).file? q = d.file? q := by
  refine Disk.file?_congr ?_
  rw [Disk.item?_put _ _ _ _ inside, if_neg other]

-- Directories that are made stand where nothing was.
theorem DiskAction.Grown.file? {sort : Place → Prop} (grown : Grown sort d d') :
    d'.file? q = d.file? q := by
  rcases grown.entry q with same | ⟨absent, made, _⟩
  · exact Disk.file?_congr same
  · unfold Disk.file?
    rw [absent, made]

theorem DiskAction.write_file {r : Except FileError Unit}
    (ran : (write p content).run.run d = (r, d')) (other : q ≠ p.place) : d'.file? q = d.file? q := by
  rcases write_cases ran with ⟨_, rfl⟩ | ⟨_, writable, rfl⟩
  · rfl
  · exact Disk.file?_put (writable_inside writable) other

theorem Registry.persist_file {registry : Registry} {r : Except FileError Registry}
    (ran : registry.persist.run.run d = (r, d')) (other : ∀ p, registry.path = some p → q ≠ p.place) :
    d'.file? q = d.file? q := by
  rcases idle_or_due registry with idle | ⟨p, path, changed⟩
  · rw [persist_idle idle] at ran
    cases ran
    rfl
  · rcases persist_cases path changed ran with ⟨_, _, grown⟩ | ⟨_, above, grown, writable, rfl⟩
    · exact grown.file?
    · rw [Disk.file?_put (writable_inside writable) (other p path), grown.file?]

end

/-! ### Worlds -/

variable {sort wide : Place → Prop} {directory : Path} {w middle w' : World σ}

-- From one world to a later one: the outlets are where they were, no other file has changed but at places of
-- a sort, and all calls were made in one directory.
structure Touched (sort : Place → Prop) (directory : Path) (w w' : World σ) : Prop where
  outlets : SameOutlets w w'
  files : ∀ q, ¬sort q → ¬w.Outlet q → w'.disk.file? q = w.disk.file? q
  calls : ∃ more, w'.calls = more ++ w.calls ∧ ∀ c ∈ more, c.directory = directory

theorem SameOutlets.outlet (same : SameOutlets w w') {q : Place} : w'.Outlet q ↔ w.Outlet q := by
  unfold World.Outlet
  rw [same.journal, same.path]

-- A note changes no file but the one of the journal.
theorem hear_file {q : Place} {n : Note} (silent : ∀ j p, w.journal = some j → j.file = some p → p.place ≠ q) :
    (Action.hear n w).disk.file? q = w.disk.file? q := by
  rcases Action.hear_cases (n := n) (w := w) with still | ⟨j, p, old, content, heard, filed, there, written⟩
  · rw [still]
  · rw [written, Disk.file?_put (Disk.inside_of_file there) (Ne.symm (silent j p heard filed))]

namespace Touched

theorem refl : Touched sort directory w w := ⟨.refl, fun _ _ _ => rfl, [], rfl, nofun⟩

theorem trans (first : Touched sort directory w middle) (second : Touched sort directory middle w') :
    Touched sort directory w w' := by
  refine ⟨first.outlets.trans second.outlets, fun q away silent => ?_, ?_⟩
  · refine (second.files q away ?_).trans (first.files q away silent)
    rwa [first.outlets.outlet]
  · obtain ⟨early, called, there⟩ := first.calls
    obtain ⟨late, calling, here⟩ := second.calls
    refine ⟨late ++ early, ?_, fun c member => ?_⟩
    · rw [calling, called, List.append_assoc]
    · rcases List.mem_append.mp member with new | old
      · exact here c new
      · exact there c old

theorem mono (touched : Touched sort directory w w') (sub : ∀ q, sort q → wide q) :
    Touched wide directory w w' :=
  ⟨touched.outlets, fun q away => touched.files q fun inside => away (sub q inside), touched.calls⟩

-- Only files were written.
theorem of_disk {d' : Disk}
    (files : ∀ q, ¬sort q → ¬w.Outlet q → d'.file? q = w.disk.file? q) :
    Touched sort directory w { w with disk := d' } :=
  ⟨⟨rfl, rfl⟩, files, [], rfl, nofun⟩

theorem hear {n : Note} : Touched sort directory w (Action.hear n w) := by
  refine ⟨.hear, fun q _ silent => hear_file fun j p heard filed same => ?_, [], Action.hear_calls, nofun⟩
  exact silent (.inl ⟨j, p, heard, filed, same.symm⟩)

end Touched

/-! ### Actions -/

-- How far an action may reach: into one directory, and where it fails for good perhaps farther.
structure Reach where
  directory : Path
  near : Place → Prop
  far : Place → Prop
  within : ∀ q, near q → far q

-- What a program for version control may touch where it is called.
def Reach.Confines (reach : Reach) (runner : Git.Runner σ) : Prop :=
  ∀ c g d q, c.directory = reach.directory → ¬reach.near q → (runner c g d).2.2.file? q = d.file? q

-- However an action ends it has touched no more than it may; a failure that may be passed over has not gone
-- farther than an end that is good.
structure Ends (runner : Git.Runner σ) (reach : Reach) (w : World σ) (good : α → Prop)
    (a : Action σ α) : Prop where
  well {x : α} {w' : World σ} (ran : a.run runner w = (.ok x, w')) :
    Touched reach.near reach.directory w w' ∧ good x
  failed {f : Failure} {w' : World σ} (ran : a.run runner w = (.error f, w')) :
    Touched reach.near reach.directory w w' ∨
      f.isTransient = false ∧ Touched reach.far reach.directory w w'

namespace Ends

open InlineProject.Action InlineProject.Git

variable {runner : Runner σ} {reach : Reach} {good : α → Prop} {better : β → Prop} {a : Action σ α}

theorem mono {fine : α → Prop} (ends : Ends runner reach w good a) (sub : ∀ x, good x → fine x) :
    Ends runner reach w fine a :=
  ⟨fun ran => ⟨(ends.well ran).1, sub _ (ends.well ran).2⟩, ends.failed⟩

-- An action of which it is known what it does.
theorem of_run {x : α} (ran : a.run runner w = (.ok x, middle))
    (touched : Touched reach.near reach.directory w middle) (fine : good x) :
    Ends runner reach w good a := by
  refine ⟨fun same => ?_, fun same => ?_⟩
  · rw [ran] at same
    cases same
    exact ⟨touched, fine⟩
  · rw [ran] at same
    cases same

theorem value {x : α} (fine : good x) : Ends runner reach w good (pure x : Action σ α) :=
  of_run (run_pure x) .refl fine

theorem failure {f : Failure} : Ends runner reach w good (fail f : Action σ α) := by
  refine ⟨fun ran => ?_, fun ran => ?_⟩
  · cases ran
  · cases ran
    exact .inl .refl

theorem modified {f : World σ → World σ} (touched : Touched reach.near reach.directory w (f w)) :
    Ends runner reach w (fun _ => True) (modify f) := of_run (run_modify f) touched trivial

-- What comes later reaches as far as the whole.
theorem later {f : Failure} (first : Touched reach.near reach.directory w middle)
    (rest : Touched reach.near reach.directory middle w' ∨
      f.isTransient = false ∧ Touched reach.far reach.directory middle w') :
    Touched reach.near reach.directory w w' ∨
      f.isTransient = false ∧ Touched reach.far reach.directory w w' :=
  rest.imp first.trans fun far => ⟨far.1, (first.mono reach.within).trans far.2⟩

theorem bind {f : α → Action σ β} (first : Ends runner reach w good a)
    (rest : ∀ x middle, a.run runner w = (.ok x, middle) → good x →
      Ends runner reach middle better (f x)) :
    Ends runner reach w better (a >>= f) := by
  refine ⟨fun ran => ?_, fun {g w'} ran => ?_⟩
  · obtain ⟨x, middle, begun, ended⟩ := bind_parts ran
    obtain ⟨touched, fine⟩ := first.well begun
    obtain ⟨touching, fair⟩ := (rest x middle begun fine).well ended
    exact ⟨touched.trans touching, fair⟩
  · rw [run_bind] at ran
    cases begun : a.run runner w with
    | mk result middle =>
      rw [begun] at ran
      cases result with
      | error e =>
        cases ran
        exact first.failed begun
      | ok x =>
        obtain ⟨touched, fine⟩ := first.well begun
        exact later touched ((rest x middle begun fine).failed ran)

-- The end of a run whatever it is.
theorem any {r : Except Failure α} (ends : Ends runner reach w good a)
    (ran : a.run runner w = (r, w')) : Touched reach.far reach.directory w w' := by
  cases r with
  | ok x => exact (ends.well ran).1.mono reach.within
  | error f => exact (ends.failed ran).elim (fun near => near.mono reach.within) fun far => far.2

theorem now {f : World σ → Action σ β} (rest : Ends runner reach w better (f w)) :
    Ends runner reach w better (get >>= f) := by
  refine ⟨fun ran => ?_, fun ran => ?_⟩
  · rw [bind_ok run_get] at ran
    exact rest.well ran
  · rw [bind_ok run_get] at ran
    exact rest.failed ran

theorem noting {level : Level} {part message : String} :
    Ends runner reach w (fun _ => True) (note level part message) :=
  of_run (run_note level part message) .hear trivial

theorem noted {level : Level} {part message : String} {f : Unit → Action σ β}
    (rest : ∀ middle, Ends runner reach middle better (f ())) :
    Ends runner reach w better (note level part message >>= f) :=
  noting.bind fun _ middle _ _ => rest middle

theorem onDisk {a : DiskAction α}
    (files : ∀ r d', a.run.run w.disk = (r, d') → ∀ q, ¬reach.near q → ¬w.Outlet q →
      d'.file? q = w.disk.file? q) :
    Ends runner reach w (fun _ => True) (Action.onDisk a) := by
  cases done : a.run.run w.disk with
  | mk result d' =>
    have touched : Touched reach.near reach.directory w { w with disk := d' } :=
      .of_disk (files result d' done)
    refine ⟨fun ran => ?_, fun ran => ?_⟩
    · rw [run_onDisk, done] at ran
      cases result <;> cases ran
      exact ⟨touched, trivial⟩
    · rw [run_onDisk, done] at ran
      cases result <;> cases ran
      exact .inl touched

theorem callGit {c : Call} (confined : reach.Confines runner) (here : c.directory = reach.directory) :
    Ends runner reach w (fun _ => True) (Action.callGit c) := by
  have touched : Touched reach.near reach.directory w ((Action.callGit c).run runner w).2 := by
    rw [run_callGit]
    refine ⟨⟨rfl, rfl⟩, fun q away _ => confined c w.git w.disk q here away, [c], rfl, ?_⟩
    intro other member
    rw [List.mem_singleton.mp member]
    exact here
  refine ⟨fun ran => ?_, fun ran => ?_⟩
  · rw [ran] at touched
    exact ⟨touched, trivial⟩
  · rw [ran] at touched
    exact .inl touched

-- What fails for good is not passed over.
theorem tryCatch {handler : Failure → Action σ α} (tried : Ends runner reach w good a)
    (caught : ∀ f middle, f.isTransient = true → Ends runner reach middle good (handler f))
    (lasting : ∀ f, f.isTransient = false → handler f = fail f) :
    Ends runner reach w good (MonadExcept.tryCatch a handler) := by
  cases begun : a.run runner w with
  | mk result middle =>
    cases result with
    | ok x =>
      have whole : (MonadExcept.tryCatch a handler).run runner w = (.ok x, middle) := by
        rw [run_tryCatch, begun]
      exact of_run whole (tried.well begun).1 (tried.well begun).2
    | error f =>
      have whole : (MonadExcept.tryCatch a handler).run runner w = (handler f).run runner middle := by
        rw [run_tryCatch, begun]
      have stopped := tried.failed begun
      cases transient : f.isTransient with
      | false =>
        rw [lasting f transient] at whole
        refine ⟨fun ran => ?_, fun ran => ?_⟩
        · rw [whole] at ran
          cases ran
        · rw [whole] at ran
          cases ran
          exact stopped
      | true =>
        have near : Touched reach.near reach.directory w middle := by
          refine stopped.elim id fun far => ?_
          rw [transient] at far
          cases far.1
        have handled := caught f middle transient
        refine ⟨fun ran => ?_, fun ran => ?_⟩
        · rw [whole] at ran
          exact ⟨near.trans (handled.well ran).1, (handled.well ran).2⟩
        · rw [whole] at ran
          exact later near (handled.failed ran)

end Ends
end InlineProject
