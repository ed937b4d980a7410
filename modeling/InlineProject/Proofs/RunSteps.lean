import InlineProject.Proofs.ContainedRun
import InlineProject.Proofs.ProjectWord
import InlineProject.Proofs.RegistrySession
import Mathlib.Logic.Relation
/-!
What a run can do at all, step by step. Every expansion, however it ends, is a row of these steps, so that what
each of them keeps is kept by all runs.
-/

namespace InlineProject

open InlineProject.Action InlineProject.Git
open InlineProject.DiskAction (Grown OnWay Writable makeDirectories_grown run_pathExists write_cases)

-- The argument that tells calls apart.
def Git.Call.verb (c : Call) : Option String := c.arguments.tail.head?

-- A call that discards nothing.
def Git.Call.Tame (c : Call) : Prop := c.verb ≠ some "reset" ∧ c.verb ≠ some "clean"

theorem Git.Call.tame_of_add {c : Call} (adds : c.verb = some "add") : c.Tame := by
  unfold Tame
  rw [adds]
  decide

namespace Expansion

-- What a run or a part of it may do: the project that gives way, the one that is registered, the names of the files
-- that are written, and whether changes in the directory may be discarded.
structure Leeway where
  base : String
  directory : Path
  project : Path
  names : List String
  restores : Bool

def leeway (e : Expansion) (source directory : Path) (names : List String) : Leeway :=
  ⟨source.stem, directory, directory.join (e.projectName source), names, true⟩

-- The same, but from where the directory is ready.
def Leeway.onwards (l : Leeway) (names : List String) : Leeway := ⟨l.base, l.directory, l.project, names, false⟩

variable {σ α β : Type} {runner : Runner σ} {e : Expansion} {l m : Leeway} {w middle w' : World σ}

inductive Step (l : Leeway) (runner : Runner σ) : World σ → World σ → Prop where
  | hear {w : World σ} (n : Note) : Step l runner w (Action.hear n w)
  -- Directories are made, those of the project and those above the file of the registry.
  | grow {w : World σ} {d : Disk} {p : Path}
      (sought : p = l.directory ∨ ∃ store, w.registry.path = some store ∧ p = store.parent)
      (grown : Grown (OnWay p.parts) w.disk d) : Step l runner w { w with disk := d }
  | write {w : World σ} {name : String} {content : ByteArray} (listed : name ∈ l.names)
      (writable : Writable w.disk (l.directory.join name) (l.directory.join name).place) :
      Step l runner w { w with disk := w.disk.put (l.directory.join name).place (.file content) }
  | take {w : World σ} {name : String} (listed : name ∈ l.names)
      (inside : ((Repository.mk l.directory).relative? (l.directory.join name)).isSome = true) :
      Step l runner w (Leads.asked runner (.taking l.directory (l.directory.join name)) w)
  -- All calls but those that take a file in.
  | call {w : World σ} {c : Call} (here : c.directory = l.directory) (other : c.verb ≠ some "add")
      (tame : l.restores = true ∨ c.Tame) :
      Step l runner w (Leads.asked runner c w)
  | evict {w : World σ} :
      Step l runner w { w with registry := (w.registry.remove (Text.ofString l.base)).2 }
  | enrol {w : World σ} : Step l runner w { w with registry := Registry.registered w l.project }
  | save {w : World σ} {p : Path} (path : w.registry.path = some p)
      (writable : Writable w.disk p p.place) : Step l runner w
      { w with
        disk := w.disk.put p.place (.file (String.ofList w.registry.layout).toUTF8)
        registry := { w.registry with changed := false } }

abbrev Steps (l : Leeway) (runner : Runner σ) : World σ → World σ → Prop := Relation.ReflTransGen (Step l runner)

theorem Step.steps (step : Step l runner w w') : Steps l runner w w' := .single step

-- What every step keeps is kept by a row of them. The induction is on the row.
theorem Steps.keeps {kept : World σ → Prop} (steps : Steps l runner w w')
    (keeps : ∀ {w w'}, kept w → Step l runner w w' → kept w') (start : kept w) : kept w' := by
  induction steps with
  | refl => exact start
  | tail _ step ih => exact keeps ih step

-- Who may do more may do what who may do less does.
structure Leeway.Within (l m : Leeway) : Prop where
  base : l.base = m.base
  directory : l.directory = m.directory
  project : l.project = m.project
  names : ∀ name ∈ l.names, name ∈ m.names
  restores : l.restores = true → m.restores = true

theorem Step.widen (within : l.Within m) (step : Step l runner w w') : Step m runner w w' := by
  obtain ⟨base, directory, project, names, restores⟩ := l
  obtain ⟨rfl, rfl, rfl, sub, may⟩ := within
  cases step with
  | hear n => exact .hear n
  | grow sought grown => exact .grow sought grown
  | write listed writable => exact .write (sub _ listed) writable
  | take listed inside => exact .take (sub _ listed) inside
  | call here other tame => exact .call here other (tame.imp_left may)
  | evict => exact .evict
  | enrol => exact .enrol
  | save path writable => exact .save path writable

theorem Steps.widen (within : l.Within m) (steps : Steps l runner w w') : Steps m runner w w' :=
  Relation.ReflTransGen.mono (fun _ _ step => Step.widen within step) _ _ steps

theorem Leeway.onwards_within {names : List String} (sub : ∀ name ∈ names, name ∈ l.names) :
    (l.onwards names).Within l := ⟨rfl, rfl, rfl, sub, nofun⟩

-- However an action ends it has made steps; of what it gives where it ends well something is known.
abbrev Walks (l : Leeway) (runner : Runner σ) (w : World σ) (good : α → Prop) (a : Action σ α) : Prop :=
  Leads runner w (fun x w' => Steps l runner w w' ∧ good x) (fun _ w' => Steps l runner w w') a

namespace Walks

variable {good : α → Prop} {better : β → Prop} {a : Action σ α}

theorem after (steps : Steps l runner w middle) (rest : Walks l runner middle good a) :
    Leads runner middle (fun x w' => Steps l runner w w' ∧ good x) (fun _ w' => Steps l runner w w') a :=
  rest.mono (fun _ _ ⟨later, fit⟩ => ⟨steps.trans later, fit⟩) fun _ _ later => steps.trans later

theorem widen (within : l.Within m) (walks : Walks l runner w good a) : Walks m runner w good a :=
  walks.mono (fun _ _ ⟨steps, fit⟩ => ⟨steps.widen within, fit⟩) fun _ _ steps => steps.widen within

theorem value {x : α} (fit : good x) : Walks l runner w good (pure x : Action σ α) := Leads.value ⟨.refl, fit⟩

theorem failure {f : Failure} : Walks l runner w good (fail f : Action σ α) := Leads.failure .refl

theorem bind {f : α → Action σ β} (first : Walks l runner w good a)
    (rest : ∀ x middle, good x → Walks l runner middle better (f x)) : Walks l runner w better (a >>= f) :=
  Leads.bind first fun x middle ⟨steps, fit⟩ => after steps (rest x middle fit)

theorem now {f : World σ → Action σ β} (rest : Walks l runner w better (f w)) :
    Walks l runner w better (get >>= f) := Leads.now rest

theorem noted {level : Level} {part message : String} {f : Unit → Action σ β}
    (rest : ∀ middle, Walks l runner middle better (f ())) :
    Walks l runner w better (note level part message >>= f) :=
  Leads.noted (after (Step.hear _).steps (rest _))

-- An action on the disk is no step where it only looks, and one step where it makes something.
theorem onDisk {a : DiskAction α}
    (steps : ∀ result d, a.run.run w.disk = (result, d) → Steps l runner w { w with disk := d }) :
    Walks l runner w (fun _ => True) (Action.onDisk a) :=
  Leads.onDisk (fun _ d done => ⟨steps _ d done, trivial⟩) fun _ d done => steps _ d done

theorem looking {p : Path} : Walks l runner w (fun _ => True) (Action.onDisk (DiskAction.pathExists p)) := by
  refine onDisk fun result d ran => ?_
  rw [run_pathExists] at ran
  cases seen : w.disk.look p <;> rw [seen] at ran <;> cases ran <;> exact .refl

theorem writing {name : String} {content : ByteArray} (listed : name ∈ l.names) :
    Walks l runner w (fun _ => True) (Action.onDisk (DiskAction.write (l.directory.join name) content)) := by
  refine onDisk fun result d ran => ?_
  rcases write_cases ran with ⟨_, rfl⟩ | ⟨_, writable, rfl⟩
  · exact .refl
  · exact (Step.write listed writable).steps

theorem growing {mayExist : Bool} :
    Walks l runner w (fun _ => True) (Action.onDisk (DiskAction.makeDirectories mayExist l.directory)) :=
  onDisk fun _ _ ran => (Step.grow (.inl rfl) (makeDirectories_grown ran)).steps

theorem callGit {c : Call} (step : Step l runner w (Leads.asked runner c w)) :
    Walks l runner w (fun _ => True) (Action.callGit c) :=
  Leads.callGit (fun _ _ => ⟨step.steps, trivial⟩) fun _ => step.steps

end Walks

/-! ### Relations between worlds -/

-- A relation to later worlds that notes do not break.
structure Onward (R : World σ → World σ → Prop) : Prop where
  refl : ∀ w, R w w
  trans : ∀ w middle w', R w middle → R middle w' → R w w'
  hear : ∀ n w, R w (Action.hear n w)

-- However an action ends, the world is related to the one it started in.
abbrev Follows (R : World σ → World σ → Prop) (runner : Runner σ) (w : World σ) (a : Action σ α) : Prop :=
  Leads runner w (fun _ w' => R w w') (fun _ w' => R w w') a

section Onward

variable {R : World σ → World σ → Prop} {a : Action σ α} {f : α → Action σ β}

theorem Follows.after (onward : Onward R) (first : R w middle) (rest : Follows R runner middle a) :
    Leads runner middle (fun _ w' => R w w') (fun _ w' => R w w') a :=
  rest.mono (fun _ _ => onward.trans _ _ _ first) fun _ _ => onward.trans _ _ _ first

theorem Follows.bind (onward : Onward R) (first : Follows R runner w a)
    (rest : ∀ x middle, Follows R runner middle (f x)) : Follows R runner w (a >>= f) :=
  Leads.bind first fun x middle begun => Follows.after onward begun (rest x middle)

theorem Follows.noted (onward : Onward R) {level : Level} {part message : String} {f : Unit → Action σ β}
    (rest : ∀ middle, Follows R runner middle (f ())) : Follows R runner w (note level part message >>= f) :=
  Leads.noted (Follows.after onward (onward.hear _ w) (rest _))

end Onward

theorem steps_onward : Onward (Steps l runner) := ⟨fun _ => .refl, fun _ _ _ => .trans, fun n _ => (Step.hear n).steps⟩

theorem Walks.follows {good : α → Prop} {a : Action σ α} (walks : Walks l runner w good a) :
    Follows (Steps l runner) runner w a := walks.mono (fun _ _ => And.left) fun _ _ => id

theorem Follows.walks {a : Action σ α} (follows : Follows (Steps l runner) runner w a) :
    Walks l runner w (fun _ => True) a := follows.mono (fun _ _ steps => ⟨steps, trivial⟩) fun _ _ => id

end Expansion

/-! ### The registry -/

namespace Registry

open InlineProject.Expansion

variable {σ : Type} {runner : Runner σ} {l : Leeway} {w : World σ} {r : Registry} {xml : String}

-- The registry that is kept has just changed, if it can be written at all.
theorem keep_walks (given : Steps l runner w { w with registry := r }) (changed : r.changed = true) :
    Walks l runner w (fun _ => True) (keep r) := by
  have done : (keep r).run runner w = _ := keep_run
  cases persisted : r.persist.run.run w.disk with
  | mk result d' =>
    rw [persisted] at done
    cases path : r.path with
    | none =>
      rw [persist_unstored path] at persisted
      cases persisted
      exact .of_run done ⟨given, trivial⟩
    | some p =>
      rcases persist_cases path changed persisted with ⟨e, rfl, grown⟩ | ⟨rfl, above, grown, writable, rfl⟩
      · exact .of_failed done (given.tail (.grow (.inr ⟨p, path, rfl⟩) grown))
      · have made : Steps l runner w { w with registry := r, disk := above } :=
          given.tail (.grow (.inr ⟨p, path, rfl⟩) grown)
        exact .of_run done ⟨made.tail (.save path writable), trivial⟩

theorem release_walks : Walks l runner w (fun _ => True) (release l.base) := by
  unfold release
  refine .now ?_
  dsimp only
  cases removed : (w.registry.remove (Text.ofString l.base)).1 with
  | false =>
    rw [if_neg Bool.false_ne_true]
    exact .value trivial
  | true =>
    rw [if_pos rfl]
    refine Leads.noted (Walks.after (Step.hear _).steps ?_)
    refine Walks.bind (keep_walks (Step.steps ?_) (remove_changed removed)) fun _ _ _ => .value trivial
    rw [← hear_registry (w := w)]
    exact .evict

theorem openProject_walks {file : Path} : Walks l runner w (fun _ => True) (openProject file) := by
  unfold openProject
  refine .now ?_
  split
  · split
    · exact .value trivial
    · exact .failure
  · exact .value trivial

theorem enroll_walks : Walks l runner w (fun _ => True) (enroll l.project) := by
  unfold enroll
  refine openProject_walks.bind fun opening middle _ => ?_
  cases opening with
  | unreadable reason => exact .noted fun _ => .value trivial
  | otherMarkup => exact .noted fun _ => .value trivial
  | project =>
    refine .now ?_
    refine Walks.bind (keep_walks Step.enrol.steps rfl) fun _ _ _ => ?_
    exact .noted fun _ => .noted fun _ => .value trivial

theorem register_walks {name : String} (listed : name ∈ l.names) (named : l.project = l.directory.join name) :
    Walks l runner w (fun _ => True) (register l.project xml) := by
  rw [register_eq]
  refine Walks.looking.bind fun there _ _ => ?_
  cases there with
  | true => exact enroll_walks
  | false =>
    have wrote {content : ByteArray} {w : World σ} :
        Walks l runner w (fun _ => True) (Action.onDisk (DiskAction.write l.project content)) := by
      rw [named]
      exact Walks.writing listed
    exact wrote.bind fun _ _ _ => enroll_walks

end Registry

/-! ### The repository -/

namespace Git.Repository

open InlineProject.Expansion

variable {σ : Type} {runner : Runner σ} {l : Leeway} {w : World σ}

theorem calling_walks {c : Call} (here : c.directory = l.directory)
    (other : c.verb ∉ [some "add", some "reset", some "clean"]) :
    Walks l runner w (fun _ => True) (Action.callGit c) := by
  simp only [List.mem_cons, List.not_mem_nil, or_false, not_or] at other
  exact Walks.callGit (.call here other.1 (.inr other.2))

theorem command_walks {arguments : List String}
    (other : arguments.head? ∉ [some "add", some "reset", some "clean"]) :
    Walks l runner w (fun _ => True) ((Repository.mk l.directory).command arguments) := by
  unfold command
  have asked : Walks l runner w (fun _ => True) (Action.callGit ⟨program :: arguments, l.directory, none, false⟩) :=
    calling_walks rfl other
  exact asked.bind fun _ _ _ => .value trivial

theorem query_walks {arguments : List String}
    (other : arguments.head? ∉ [some "add", some "reset", some "clean"]) :
    Walks l runner w (fun _ => True) ((Repository.mk l.directory).query arguments) :=
  calling_walks (c := ⟨program :: arguments, l.directory, none, true⟩) rfl other

theorem head_walks : Walks l runner w (fun _ => True) (Repository.mk l.directory).head := by
  unfold head
  refine (query_walks (by decide)).bind fun sha _ _ => ?_
  refine Walks.bind (query_walks ?_) fun _ _ _ => .value trivial
  change some "log" ∉ _
  decide

theorem commit_walks {message : String} {identity : Identity} {allowEmpty : Bool} :
    Walks l runner w (fun _ => True) ((Repository.mk l.directory).commit message identity allowEmpty) := by
  have other : (commitArguments message allowEmpty).tail.head? ∉ [some "add", some "reset", some "clean"] := by
    change some "-c" ∉ _
    decide
  have asked : Walks l runner w (fun _ => True)
      (Action.callGit ⟨commitArguments message allowEmpty, l.directory, some identity, false⟩) :=
    calling_walks rfl other
  unfold commit
  exact asked.bind fun _ _ _ => head_walks

theorem create_walks {identity : Identity} {message : String} :
    Walks l runner w (fun r => r = ⟨l.directory⟩) (create l.directory identity message) := by
  unfold create
  refine (command_walks (by decide)).bind fun _ _ _ => ?_
  exact commit_walks.bind fun _ _ _ => .value rfl

theorem isDirty_walks : Walks l runner w (fun _ => True) (Repository.mk l.directory).isDirty := by
  unfold isDirty
  exact (query_walks (by decide)).bind fun _ _ _ => .value trivial

theorem restore_walks (may : l.restores = true) :
    Walks l runner w (fun _ => True) (Repository.mk l.directory).restore := by
  have discards {arguments : List String} {w : World σ} (other : arguments.head? ≠ some "add") :
      Walks l runner w (fun _ => True) ((Repository.mk l.directory).command arguments) := by
    have step : Step l runner w (Leads.asked runner ⟨program :: arguments, l.directory, none, false⟩ w) :=
      .call rfl other (.inl may)
    unfold command
    exact (Walks.callGit step).bind fun _ _ _ => .value trivial
  unfold restore
  exact (discards (by decide)).bind fun _ _ _ => discards (by decide)

theorem stage_walks {name : String} (listed : name ∈ l.names) :
    Walks l runner w (fun _ => True) ((Repository.mk l.directory).stage (l.directory.join name)) := by
  unfold stage
  cases relative : (Repository.mk l.directory).relative? (l.directory.join name) with
  | none => exact .failure
  | some p =>
    have inside : ((Repository.mk l.directory).relative? (l.directory.join name)).isSome = true := by
      rw [relative]
      rfl
    have step : Step l runner w (Leads.asked runner (.taking l.directory (l.directory.join name)) w) :=
      .take listed inside
    unfold Call.taking at step
    rw [relative] at step
    unfold command
    exact (Walks.callGit step).bind fun _ _ _ => .value trivial

theorem staged_walks : Walks l runner w (fun _ => True) (Repository.mk l.directory).staged := by
  unfold staged
  exact (query_walks (by decide)).bind fun _ _ _ => .value trivial

theorem commitStaged_walks {identity : Identity} {message : String} :
    Walks l runner w (fun _ => True) ((Repository.mk l.directory).commitStaged identity message) := by
  unfold commitStaged
  refine staged_walks.bind fun files _ _ => ?_
  split
  · exact head_walks.bind fun _ _ _ => .noted fun _ => .value trivial
  · exact commit_walks.bind fun _ _ _ => .noted fun _ => .value trivial

end Git.Repository

/-! ### The files of a project -/

namespace Scaffold

open InlineProject.Expansion InlineProject.Git.Repository

variable {σ : Type} {runner : Runner σ} {l : Leeway} {w : World σ} {s : Scaffold}
  {content name stem suffix xml : String} {u : Source.Unit}

theorem prepare_walks (may : l.restores = true) :
    Walks l runner w (fun r => r = ⟨l.directory⟩) (s.prepare l.directory) := by
  unfold prepare
  refine Walks.looking.bind fun there middle _ => ?_
  cases there with
  | false => exact Walks.growing.bind fun _ _ _ => .noted fun _ => create_walks
  | true =>
    refine Walks.looking.bind fun kept middle _ => ?_
    cases kept with
    | false => exact .noted fun _ => create_walks
    | true =>
      refine isDirty_walks.bind fun dirty _ _ => ?_
      cases dirty with
      | false => exact .value rfl
      | true => exact .noted fun _ => (restore_walks may).bind fun _ _ _ => .value rfl

theorem writeStaged_walks (listed : name ∈ l.names) :
    Walks l runner w (fun _ => True) (writeStaged ⟨l.directory⟩ (l.directory.join name) content) := by
  unfold writeStaged
  exact (Walks.writing listed).bind fun _ _ _ => stage_walks listed

theorem writeProjectFile_walks (listed : name ++ s.extension ∈ l.names) :
    Walks l runner w (fun written => written = l.directory.join (name ++ s.extension))
      (s.writeProjectFile ⟨l.directory⟩ l.directory name xml) := by
  unfold writeProjectFile
  exact (writeStaged_walks listed).bind fun _ _ _ => .noted fun _ => .value rfl

theorem noteUsings_walks {directives : List Source.Node} :
    Walks l runner w (fun _ => True) (noteUsings directives) := by
  induction directives generalizing w with
  | nil => exact .value trivial
  | cons n rest ih =>
    unfold noteUsings
    exact .noted fun _ => ih

theorem splitUsings_walks (listed : u.distinctUsings.isEmpty = false → stem ++ suffix ∈ l.names) :
    Walks l runner w (fun _ => True) (splitUsings ⟨l.directory⟩ l.directory stem suffix u) := by
  unfold splitUsings
  dsimp only
  split
  · exact .value trivial
  · rename_i used
    refine noteUsings_walks.bind fun _ _ _ => ?_
    exact (writeStaged_walks (listed (Bool.eq_false_of_not_eq_true used))).bind fun _ _ _ =>
      .noted fun _ => .value trivial

theorem writeSource_walks (listed : name ∈ l.names) :
    Walks l runner w (fun _ => True) (writeSource ⟨l.directory⟩ l.directory name u) := by
  unfold writeSource
  exact (writeStaged_walks listed).bind fun _ _ _ => .noted fun _ => .value trivial

theorem writeReadme_walks (listed : readmeName ∈ l.names) :
    Walks l runner w (fun _ => True) (writeReadme ⟨l.directory⟩ l.directory content) := by
  unfold writeReadme
  exact (writeStaged_walks listed).bind fun _ _ _ => .value trivial

end Scaffold

/-! ### The expansion of a file -/

namespace Expansion

variable {σ : Type} {runner : Runner σ} {e : Expansion} {l : Leeway} {w : World σ}
  {source directory output file : Path} {names : List String} {u : Source.Unit} {comment : Source.Node}
  {asked : Option Path}

theorem projectXml_follows {R : World σ → World σ → Prop} (onward : Onward R) :
    Follows R runner w (e.projectXml comment) := by
  unfold projectXml
  split
  · exact .failure (onward.refl _)
  · split
    · exact Follows.noted onward fun _ => .value (onward.refl _)
    · exact .value (onward.refl _)

theorem projectXml_walks : Walks l runner w (fun _ => True) (e.projectXml comment) :=
  (projectXml_follows steps_onward).walks

theorem evict_walks : Walks l runner w (fun _ => True) (evict l.base) := by
  have found : Walks l runner w (fun _ => True) (Registry.find l.base) := by
    unfold Registry.find
    exact .now (.value trivial)
  unfold evict
  refine found.bind fun listed _ _ => ?_
  split
  · exact Registry.release_walks.bind fun _ _ _ => .value trivial
  · exact .value trivial

-- The names of all files that an expansion of some part of a source writes are listed.
structure Lists (e : Expansion) (source : Path) (u : Source.Unit) (names : List String) : Prop where
  project : e.projectName source ∈ names
  usings : u.usings ≠ [] → e.configuration.project.globalUsings ++ source.suffix ∈ names
  source : source.name ∈ names
  readme : Scaffold.readmeName ∈ names

theorem lists_possible : e.Lists source u (e.possibleNames source) := by
  constructor <;> simp [possibleNames]

theorem Lists.without (lists : e.Lists source u names) {gone : List Source.Node} :
    e.Lists source (u.without gone) names := by
  refine ⟨lists.project, fun used => lists.usings fun none => used ?_, lists.source, lists.readme⟩
  refine List.filter_eq_nil_iff.mpr fun n kept => ?_
  exact List.filter_eq_nil_iff.mp none n (Source.Unit.without_nodes_subset kept)

theorem deliver_walks (lists : e.Lists source u names) {kept : Source.Unit} :
    Walks ((e.leeway source directory names).onwards names) runner w (fun _ => True)
      (e.deliver source directory ⟨directory⟩ (directory.join (e.projectName source)) kept) := by
  unfold deliver
  refine Walks.bind (Scaffold.writeSource_walks lists.source) fun _ _ _ => .noted fun _ => ?_
  refine Walks.bind (Registry.register_walks lists.project rfl) fun refused _ _ => ?_
  cases refused with
  | true => exact .value trivial
  | false =>
    refine Walks.bind (Scaffold.writeReadme_walks lists.readme) fun _ _ _ => ?_
    exact Walks.bind Repository.commitStaged_walks fun _ _ _ => .value trivial

-- From where the directory is ready nothing is discarded.
theorem fill_walks (lists : e.Lists source u names) {xml : String} :
    Walks ((e.leeway source directory names).onwards names) runner w (fun _ => True) (do
      let projectFile ← e.scaffold.writeProjectFile ⟨directory⟩ directory source.stem xml
      let u ← Scaffold.splitUsings ⟨directory⟩ directory e.configuration.project.globalUsings source.suffix u
      e.deliver source directory ⟨directory⟩ projectFile u) := by
  refine Walks.bind (Scaffold.writeProjectFile_walks lists.project) fun written _ wrote => ?_
  rw [wrote]
  refine Walks.bind (Scaffold.splitUsings_walks fun used => lists.usings ?_) fun _ _ _ => deliver_walks lists
  intro none
  unfold Source.Unit.distinctUsings at used
  rw [none] at used
  cases used

theorem build_walks (lists : e.Lists source u names) {xml : String} :
    Walks (e.leeway source directory names) runner w (fun _ => True) (e.build source directory xml u) := by
  unfold build
  refine Walks.bind (Scaffold.prepare_walks rfl) fun r _ same => ?_
  subst same
  exact (fill_walks lists).widen (Leeway.onwards_within fun _ => id)

theorem expandComment_walks (lists : e.Lists source u names) :
    Walks (e.leeway source (output.join source.stem) names) runner w (fun _ => True)
      (e.expandComment source output u comment) := by
  unfold expandComment
  dsimp only
  refine projectXml_walks.bind fun xml _ _ => ?_
  split
  · exact .noted fun _ => .value trivial
  · exact .noted fun _ => Walks.bind evict_walks fun _ _ _ => build_walks lists.without

theorem resolve_leads {here p : Path} : Leads runner w (fun q w' => w' = w ∧ q = p.resolve here) (fun _ w' => w' = w)
    (Action.onDisk (DiskAction.resolve here p)) := by
  unfold DiskAction.resolve
  split
  · refine Leads.onDisk (fun x d done => ?_) fun x d done => ?_
    · cases done
    · cases done
      rfl
  · refine Leads.onDisk (fun x d done => ?_) fun x d done => ?_
    · cases done
      exact ⟨rfl, rfl⟩
    · cases done

theorem outputFor_leads (source_is : source = file.resolve e.here) :
    Leads runner w (fun place w' => w' = w ∧ place = e.outputOf file asked) (fun _ w' => w' = w)
      (e.outputFor source asked) := by
  unfold outputFor
  cases asked with
  | some p => exact resolve_leads
  | none =>
    refine .value ⟨rfl, ?_⟩
    rw [source_is]
    rfl

/-! ### What holds of the expansions of comments -/

section Onward

variable {R : World σ → World σ → Prop}

theorem processComment_follows (onward : Onward R)
    (expanding : Follows R runner w (e.expandComment source output u comment)) :
    Follows R runner w (e.processComment source output u comment) := by
  unfold processComment
  refine Leads.tryCatch expanding fun f middle begun => Follows.after onward begun ?_
  split
  · exact Follows.noted onward fun _ => .value (onward.refl _)
  · exact .failure (onward.refl _)

-- The induction is on the comments, from any world on.
theorem firstHandled_follows (onward : Onward R)
    (expanding : ∀ comment w, Follows R runner w (e.expandComment source output u comment))
    {comments : List Source.Node} :
    Follows R runner w (Descriptor.firstHandled (e.processComment source output u) comments) := by
  induction comments generalizing w with
  | nil => exact .value (onward.refl _)
  | cons comment rest ih =>
    unfold Descriptor.firstHandled
    refine Follows.bind onward (processComment_follows onward (expanding comment w)) fun outcome _ => ?_
    split
    · exact .value (onward.refl _)
    · exact ih

-- Around the comments of a file there is nothing but notes.
theorem processFileBy_follows (onward : Onward R) {parse : String → Source.Unit} (source_is : source = file.resolve e.here)
    (expanding : ∀ text, textAt (opened source w).disk source = .ok text →
      Follows R runner (opened source w)
        (Descriptor.extract (parse text) (e.processComment source (e.outputOf file asked) (parse text)))) :
    Follows R runner w (e.processFileBy parse file asked) := by
  have still {w w' : World σ} (same : w' = w) : R w w' := by
    rw [same]
    exact onward.refl _
  unfold processFileBy
  refine Leads.bind (resolve_leads.mono (fun _ _ => id) fun _ _ => still) fun resolved middle ⟨unmoved, same⟩ => ?_
  rw [unmoved, same, ← source_is]
  refine Leads.noted (Follows.after onward (onward.hear _ _) (.now ?_))
  split
  · exact Follows.noted onward fun _ => .value (onward.refl _)
  · rename_i text read
    split
    · exact Follows.noted onward fun _ => .value (onward.refl _)
    · unfold processUnit
      refine Leads.bind ((outputFor_leads source_is).mono (fun _ _ => id) fun _ _ => still) fun _ _ ⟨unmoved, same⟩ => ?_
      rw [unmoved, same]
      refine Follows.bind onward (expanding text read) fun outcome _ => ?_
      split
      · exact Follows.noted onward fun _ => .value (onward.refl _)
      · exact Follows.noted onward fun _ => .value (onward.refl _)

end Onward

-- A run is a row of steps if the expansion of the comments is one.
theorem processFileBy_walks_of {parse : String → Source.Unit} (source_is : source = file.resolve e.here)
    (expanding : ∀ text, textAt (opened source w).disk source = .ok text →
      Walks l runner (opened source w) (fun _ => True)
        (Descriptor.extract (parse text) (e.processComment source (e.outputOf file asked) (parse text)))) :
    Walks l runner w (fun _ => True) (e.processFileBy parse file asked) :=
  (processFileBy_follows steps_onward source_is fun text read => (expanding text read).follows).walks

-- A run is a row of steps, whatever comes of it.
theorem processFileBy_walks {parse : String → Source.Unit} (source_is : source = file.resolve e.here)
    (directory_is : directory = (e.outputOf file asked).join source.stem)
    (lists : ∀ text, textAt (opened source w).disk source = .ok text → e.Lists source (parse text) names) :
    Walks (e.leeway source directory names) runner w (fun _ => True) (e.processFileBy parse file asked) := by
  rw [directory_is]
  refine processFileBy_walks_of source_is fun text read => ?_
  exact (firstHandled_follows steps_onward fun _ _ => (expandComment_walks (lists text read)).follows).walks

end Expansion
end InlineProject
