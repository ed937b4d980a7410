import InlineProject.Proofs.ArtifactFiles
import InlineProject.Proofs.NullPaths
/-!
What a run attempts, one thing after another, up to the first that fails. Failures of the system and of the version
control program come to nothing; the others, which a name or the project file itself causes, are let through.
-/

namespace InlineProject

open InlineProject.Action InlineProject.Git

-- The failure that an attempt on the disk ends in, if it does not succeed.
def DiskAction.failure? {α : Type} : Except FileError α → Option Failure
  | .ok _ => none
  | .error e => some (.file e)

-- The failure that a reply makes of a call, if it is no answer.
def Git.Reply.failure? (c : Call) : Reply → Option InlineProject.Failure
  | .output _ => none
  | .failed status complaint => some (.git ⟨c.arguments, status, complaint⟩)
  | .unavailable e => some (.file e)
  | .unreadable e => some (.encoding e)

namespace Expansion

variable {σ α β : Type} {runner : Runner σ} {e : Expansion} {l : Leeway} {w middle w' : World σ}
  {tried more most files : List (String × String)} {ended : Option Failure} {f : Failure}

-- A single attempt: the files of the project it is about, and the failure it ends in, if any.
inductive Attempt (l : Leeway) (runner : Runner σ) :
    World σ → List (String × String) → Option Failure → World σ → Prop where
  | hear {w : World σ} (n : Note) : Attempt l runner w [] none (Action.hear n w)
  | look {w : World σ} {p : Path} {result : Except FileError Bool} {d : Disk}
      (looked : (DiskAction.pathExists p).run.run w.disk = (result, d)) :
      Attempt l runner w [] (DiskAction.failure? result) { w with disk := d }
  -- Directories are made, those of the project and those above the file of the registry.
  | grow {w : World σ} {p : Path} {mayExist : Bool} {result : Except FileError Unit} {d : Disk}
      (sought : p = l.directory ∨ ∃ store, w.registry.path = some store ∧ p = store.parent)
      (made : (DiskAction.makeDirectories mayExist p).run.run w.disk = (result, d)) :
      Attempt l runner w [] (DiskAction.failure? result) { w with disk := d }
  | write {w : World σ} {name content : String} {result : Except FileError Unit} {d : Disk} (listed : name ∈ l.names)
      (wrote : (DiskAction.write (l.directory.join name) content.toUTF8).run.run w.disk = (result, d)) :
      Attempt l runner w [(name, content)] (DiskAction.failure? result) { w with disk := d }
  -- A project file that has gone is made anew before it is registered.
  | mend {w : World σ} {name : String} {content : ByteArray} {result : Except FileError Unit} {d : Disk}
      (listed : name ∈ l.names) (named : l.project = l.directory.join name)
      (wrote : (DiskAction.write l.project content).run.run w.disk = (result, d)) :
      Attempt l runner w [] (DiskAction.failure? result) { w with disk := d }
  | evict {w : World σ} :
      Attempt l runner w [] none { w with registry := (w.registry.remove (Text.ofString l.base)).2 }
  | enrol {w : World σ} : Attempt l runner w [] none { w with registry := Registry.registered w l.project }
  | save {w : World σ} {p : Path} {result : Except FileError Unit} {d : Disk} (path : w.registry.path = some p)
      (wrote : (DiskAction.write p (String.ofList w.registry.layout).toUTF8).run.run w.disk = (result, d)) :
      Attempt l runner w [] (DiskAction.failure? result) { w with disk := d }
  | saved {w : World σ} : Attempt l runner w [] none { w with registry := { w.registry with changed := false } }
  | call {w : World σ} {c : Call} (here : c.directory = l.directory) :
      Attempt l runner w [] ((runner c w.git w.disk).1.failure? c) (Leads.asked runner c w)
  -- A file is to be taken in that is not below the directory.
  | refuse {w : World σ} {name : String} (listed : name ∈ l.names)
      (outside : (Repository.mk l.directory).relative? (l.directory.join name) = none) :
      Attempt l runner w [] (some (.outside (l.directory.resolve Repository.root))) w
  -- The project file declares an encoding that cannot be read.
  | read {w : World σ} {content : ByteArray} {d : Disk} {f : Failure}
      (held : (DiskAction.read l.project).run.run w.disk = (.ok content, d))
      (opened : Registry.openingOf content = .error f) : Attempt l runner w [] (some f) w

-- Attempts one after another. The first that fails is the last one.
inductive Course (l : Leeway) (runner : Runner σ) :
    World σ → List (String × String) → Option Failure → World σ → Prop where
  | done {w : World σ} : Course l runner w [] none w
  | cut {w w' : World σ} {tried : List (String × String)} {f : Failure}
      (last : Attempt l runner w tried (some f) w') : Course l runner w tried (some f) w'
  | step {w middle w' : World σ} {tried more : List (String × String)} {ended : Option Failure}
      (first : Attempt l runner w tried none middle) (rest : Course l runner middle more ended w') :
      Course l runner w (tried ++ more) ended w'

namespace Course

theorem single (attempt : Attempt l runner w tried ended w') : Course l runner w tried ended w' := by
  cases ended with
  | some f => exact .cut attempt
  | none =>
    have whole : Course l runner w (tried ++ []) none w' := .step attempt .done
    rwa [List.append_nil] at whole

theorem append (first : Course l runner w tried none middle) (rest : Course l runner middle more ended w') :
    Course l runner w (tried ++ more) ended w' := by
  generalize same : (none : Option Failure) = success at first
  induction first with
  | done => exact rest
  | cut _ => cases same
  | step attempt _ ih =>
    rw [List.append_assoc]
    exact .step attempt (ih rest same)

end Course

-- An action is a course of attempts on some files: on those that belong to what it gives where it ends well, and on
-- the first ones of most of all where it does not.
abbrev Tries (l : Leeway) (runner : Runner σ) (w : World σ) (most : List (String × String))
    (files : α → List (String × String)) (good : α → Prop) (a : Action σ α) : Prop :=
  Leads runner w (fun x w' => Course l runner w (files x) none w' ∧ good x)
    (fun f w' => ∃ tried, tried <+: most ∧ Course l runner w tried (some f) w') a

-- The same of an action that writes none of the files of the project.
abbrev Manages (l : Leeway) (runner : Runner σ) (w : World σ) (good : α → Prop) (a : Action σ α) : Prop :=
  Tries l runner w [] (fun _ => []) good a

namespace Tries

variable {good : α → Prop} {better : β → Prop} {a : Action σ α} {g : α → Action σ β}
  {files : α → List (String × String)} {others : β → List (String × String)}

theorem value {x : α} (none : files x = []) (fit : good x) :
    Tries l runner w most files good (pure x : Action σ α) := by
  refine Leads.value ⟨?_, fit⟩
  rw [none]
  exact .done

theorem failure (attempt : Attempt l runner w [] (some f) w) :
    Tries l runner w most files good (fail f : Action σ α) :=
  Leads.failure ⟨[], List.nil_prefix, .cut attempt⟩

theorem after (first : Course l runner w tried none middle) (rest : Tries l runner middle most files good a) :
    Leads runner middle (fun x w' => Course l runner w (tried ++ files x) none w' ∧ good x)
      (fun f w' => ∃ all, all <+: tried ++ most ∧ Course l runner w all (some f) w') a :=
  rest.mono (fun _ _ ⟨later, fit⟩ => ⟨first.append later, fit⟩) fun _ _ ⟨_, start, later⟩ =>
    ⟨_, (List.prefix_append_right_inj tried).mpr start, first.append later⟩

-- First some files, then others.
theorem bind {some : List (String × String)} (first : Tries l runner w some (fun _ => some) good a)
    (rest : ∀ x middle, good x → Tries l runner middle most others better (g x)) :
    Tries l runner w (some ++ most) (fun y => some ++ others y) better (a >>= g) := by
  refine Leads.bind (first.mono (fun _ _ done => done) ?_) fun x middle ⟨course, fit⟩ => after course (rest x middle fit)
  rintro f w' ⟨tried, start, course⟩
  exact ⟨tried, start.trans (List.prefix_append _ _), course⟩

theorem quiet (first : Manages l runner w good a)
    (rest : ∀ x middle, good x → Tries l runner middle most others better (g x)) :
    Tries l runner w most others better (a >>= g) := bind first rest

theorem last {some : List (String × String)} (first : Tries l runner w some (fun _ => some) good a)
    (rest : ∀ x middle, good x → Manages l runner middle better (g x)) :
    Tries l runner w some (fun _ => some) better (a >>= g) := by
  have whole := bind first rest
  simpa only [List.append_nil] using whole

theorem later (first : Course l runner w [] none middle) (rest : Tries l runner middle most files good a) :
    Leads runner middle (fun x w' => Course l runner w (files x) none w' ∧ good x)
      (fun f w' => ∃ all, all <+: most ∧ Course l runner w all (some f) w') a := after first rest

theorem now {g : World σ → Action σ β} (rest : Tries l runner w most others better (g w)) :
    Tries l runner w most others better (get >>= g) := Leads.now rest

theorem noted {level : Level} {part message : String} {g : Unit → Action σ β}
    (rest : ∀ middle, Tries l runner middle most others better (g ())) :
    Tries l runner w most others better (note level part message >>= g) :=
  Leads.noted (later (.single (.hear _)) (rest _))

theorem onDisk {some : List (String × String)} {a : DiskAction α}
    (attempt : ∀ result d, a.run.run w.disk = (result, d) →
      Attempt l runner w some (DiskAction.failure? result) { w with disk := d }) :
    Tries l runner w some (fun _ => some) (fun _ => True) (Action.onDisk a) :=
  Leads.onDisk (fun _ _ ran => ⟨.single (attempt _ _ ran), trivial⟩) fun _ _ ran =>
    ⟨some, List.prefix_rfl, .single (attempt _ _ ran)⟩

theorem callGit {c : Call} (here : c.directory = l.directory) :
    Manages l runner w (fun _ => True) (Action.callGit c) := by
  have attempt : Attempt l runner w [] ((runner c w.git w.disk).1.failure? c) (Leads.asked runner c w) := .call here
  constructor
  · intro text w' ran
    obtain ⟨g, d, replied, rfl⟩ := callGit_parts ran
    unfold Leads.asked at attempt
    rw [replied] at attempt
    exact ⟨.single attempt, trivial⟩
  · intro f w' ran
    rw [run_callGit] at ran
    unfold Leads.asked at attempt
    rcases replied : runner c w.git w.disk with ⟨reply, g, d⟩
    rw [replied] at ran attempt
    cases reply <;> cases ran <;> exact ⟨[], List.nil_prefix, .single attempt⟩

end Tries

end Expansion

/-! ### The registry -/

namespace Registry

open InlineProject.Expansion

variable {σ : Type} {runner : Runner σ} {l : Leeway} {w : World σ} {r : Registry} {xml : String}

-- A registry that has just changed is written if it has a file.
theorem keep_tries (given : Course l runner w [] none { w with registry := r }) (changed : r.changed = true) :
    Manages l runner w (fun _ => True) (keep r) := by
  have done : (keep r).run runner w = _ := keep_run
  cases path : r.path with
  | none =>
    rw [persist_unstored path] at done
    exact .of_run done ⟨given, trivial⟩
  | some p =>
    rw [persist_run path changed] at done
    cases grown : (DiskAction.makeDirectories true p.parent).run.run w.disk with
    | mk result above =>
      have making : Course l runner w [] (DiskAction.failure? result) { w with registry := r, disk := above } :=
        given.append (.single (.grow (.inr ⟨p, path, rfl⟩) grown))
      rw [grown] at done
      cases result with
      | error e => exact .of_failed done ⟨[], List.nil_prefix, making⟩
      | ok _ =>
        dsimp only at done
        cases wrote : (DiskAction.write p (String.ofList r.layout).toUTF8).run.run above with
        | mk written d' =>
          have writing : Course l runner w [] (DiskAction.failure? written) { w with registry := r, disk := d' } :=
            making.append (.single (.save path wrote))
          rw [wrote] at done
          cases written with
          | error e => exact .of_failed done ⟨[], List.nil_prefix, writing⟩
          | ok _ => exact .of_run done ⟨writing.append (.single .saved), trivial⟩

theorem release_tries : Manages l runner w (fun _ => True) (release l.base) := by
  unfold release
  refine .now ?_
  dsimp only
  cases removed : (w.registry.remove (Text.ofString l.base)).1 with
  | false =>
    rw [if_neg Bool.false_ne_true]
    exact .value rfl trivial
  | true =>
    rw [if_pos rfl]
    refine Leads.noted (Tries.later (.single (.hear _)) ?_)
    refine Tries.quiet (keep_tries (.single ?_) (remove_changed removed)) fun _ _ _ => .value rfl trivial
    rw [← hear_registry (w := w)]
    exact .evict

theorem openProject_tries : Manages l runner w (fun _ => True) (openProject l.project) := by
  unfold openProject
  refine .now ?_
  split
  · rename_i content _ held
    split
    · exact .value rfl trivial
    · rename_i f opened
      exact .failure (.read held opened)
  · exact .value rfl trivial

theorem enroll_tries : Manages l runner w (fun _ => True) (enroll l.project) := by
  unfold enroll
  refine openProject_tries.quiet fun opening middle _ => ?_
  cases opening with
  | unreadable reason => exact .noted fun _ => .value rfl trivial
  | otherMarkup => exact .noted fun _ => .value rfl trivial
  | project =>
    refine .now ?_
    refine Tries.quiet (keep_tries (.single .enrol) rfl) fun _ _ _ => ?_
    exact .noted fun _ => .noted fun _ => .value rfl trivial

theorem register_tries {name : String} (listed : name ∈ l.names) (named : l.project = l.directory.join name) :
    Manages l runner w (fun _ => True) (register l.project xml) := by
  rw [register_eq]
  refine Tries.quiet (Tries.onDisk fun _ _ looked => .look looked) fun there _ _ => ?_
  cases there with
  | true => exact enroll_tries
  | false => exact Tries.quiet (Tries.onDisk fun _ _ wrote => .mend listed named wrote) fun _ _ _ => enroll_tries

end Registry
/-! ### The repository -/

namespace Git.Repository

open InlineProject.Expansion

variable {σ : Type} {runner : Runner σ} {l : Leeway} {w : World σ}

theorem command_tries {arguments : List String} :
    Manages l runner w (fun _ => True) ((Repository.mk l.directory).command arguments) := by
  unfold command
  exact Tries.quiet (Tries.callGit rfl) fun _ _ _ => .value rfl trivial

theorem query_tries {arguments : List String} :
    Manages l runner w (fun _ => True) ((Repository.mk l.directory).query arguments) := Tries.callGit rfl

theorem head_tries : Manages l runner w (fun _ => True) (Repository.mk l.directory).head := by
  unfold head
  exact query_tries.quiet fun _ _ _ => query_tries.quiet fun _ _ _ => .value rfl trivial

theorem commit_tries {message : String} {identity : Identity} {allowEmpty : Bool} :
    Manages l runner w (fun _ => True) ((Repository.mk l.directory).commit message identity allowEmpty) := by
  unfold commit
  exact Tries.quiet (Tries.callGit rfl) fun _ _ _ => head_tries

theorem create_tries {identity : Identity} {message : String} :
    Manages l runner w (fun r => r = ⟨l.directory⟩) (create l.directory identity message) := by
  unfold create
  exact command_tries.quiet fun _ _ _ => commit_tries.quiet fun _ _ _ => .value rfl rfl

theorem isDirty_tries : Manages l runner w (fun _ => True) (Repository.mk l.directory).isDirty := by
  unfold isDirty
  exact query_tries.quiet fun _ _ _ => .value rfl trivial

theorem restore_tries : Manages l runner w (fun _ => True) (Repository.mk l.directory).restore := by
  unfold restore
  exact command_tries.quiet fun _ _ _ => command_tries

theorem stage_tries {name : String} (listed : name ∈ l.names) :
    Manages l runner w (fun _ => True) ((Repository.mk l.directory).stage (l.directory.join name)) := by
  unfold stage
  split
  · exact command_tries
  · rename_i outside
    exact .failure (.refuse listed outside)

theorem commitStaged_tries {identity : Identity} {message : String} :
    Manages l runner w (fun _ => True) ((Repository.mk l.directory).commitStaged identity message) := by
  have listing : Manages l runner w (fun _ => True) (Repository.mk l.directory).staged := by
    unfold staged
    exact query_tries.quiet fun _ _ _ => .value rfl trivial
  unfold commitStaged
  refine listing.quiet fun files _ _ => ?_
  split
  · exact head_tries.quiet fun _ _ _ => .noted fun _ => .value rfl trivial
  · exact commit_tries.quiet fun _ _ _ => .noted fun _ => .value rfl trivial

end Git.Repository

/-! ### The files of a project -/

namespace Scaffold

open InlineProject.Expansion InlineProject.Git.Repository

variable {σ : Type} {runner : Runner σ} {l : Leeway} {w : World σ} {s : Scaffold}
  {content name stem suffix xml : String} {u : Source.Unit}

theorem prepare_tries : Manages l runner w (fun r => r = ⟨l.directory⟩) (s.prepare l.directory) := by
  have looking {p : Path} {w : World σ} :
      Manages l runner w (fun _ => True) (Action.onDisk (DiskAction.pathExists p)) :=
    Tries.onDisk fun _ _ looked => .look looked
  unfold prepare
  refine looking.quiet fun there middle _ => ?_
  cases there with
  | false => exact Tries.quiet (Tries.onDisk fun _ _ made => .grow (.inl rfl) made) fun _ _ _ => .noted fun _ => create_tries
  | true =>
    refine looking.quiet fun kept middle _ => ?_
    cases kept with
    | false => exact .noted fun _ => create_tries
    | true =>
      refine isDirty_tries.quiet fun dirty _ _ => ?_
      cases dirty with
      | false => exact .value rfl rfl
      | true => exact .noted fun _ => restore_tries.quiet fun _ _ _ => .value rfl rfl

theorem writeStaged_tries (listed : name ∈ l.names) :
    Tries l runner w [(name, content)] (fun _ => [(name, content)]) (fun _ => True)
      (writeStaged ⟨l.directory⟩ (l.directory.join name) content) := by
  unfold writeStaged
  exact Tries.last (Tries.onDisk fun _ _ wrote => .write listed wrote) fun _ _ _ => stage_tries listed

theorem writeProjectFile_tries (listed : name ++ s.extension ∈ l.names) :
    Tries l runner w [(name ++ s.extension, xml)] (fun _ => [(name ++ s.extension, xml)])
      (fun written => written = l.directory.join (name ++ s.extension))
      (s.writeProjectFile ⟨l.directory⟩ l.directory name xml) := by
  unfold writeProjectFile
  exact Tries.last (writeStaged_tries listed) fun _ _ _ =>
    .noted fun _ => .value rfl rfl

theorem noteUsings_tries {directives : List Source.Node} :
    Manages l runner w (fun _ => True) (noteUsings directives) := by
  induction directives generalizing w with
  | nil => exact .value rfl trivial
  | cons n rest ih =>
    unfold noteUsings
    exact .noted fun _ => ih

theorem splitUsings_tries (listed : u.distinctUsings.isEmpty = false → stem ++ suffix ∈ l.names) :
    Tries l runner w (usingFiles (stem ++ suffix) u) (fun _ => usingFiles (stem ++ suffix) u)
      (fun kept => kept = u.without u.usings) (splitUsings ⟨l.directory⟩ l.directory stem suffix u) := by
  unfold splitUsings usingFiles
  cases used : u.distinctUsings.isEmpty with
  | true =>
    simp only [used, if_true]
    refine .value rfl ?_
    rw [Source.Unit.usings_of_distinctUsings_isEmpty used, Source.Unit.without_nil]
  | false =>
    simp only [used, Bool.false_eq_true, if_false]
    refine noteUsings_tries.quiet fun _ _ _ => ?_
    exact Tries.last (writeStaged_tries (listed used)) fun _ _ _ =>
      .noted fun _ => .value rfl rfl

theorem writeSource_tries (listed : name ∈ l.names) :
    Tries l runner w [(name, u.fullText)] (fun _ => [(name, u.fullText)]) (fun _ => True)
      (writeSource ⟨l.directory⟩ l.directory name u) := by
  unfold writeSource
  exact Tries.last (writeStaged_tries listed) fun _ _ _ =>
    .noted fun _ => .value rfl trivial

theorem writeReadme_tries (listed : readmeName ∈ l.names) :
    Tries l runner w [(readmeName, content)] (fun _ => [(readmeName, content)]) (fun _ => True)
      (writeReadme ⟨l.directory⟩ l.directory content) := by
  unfold writeReadme
  exact Tries.last (writeStaged_tries listed) fun _ _ _ => .value rfl trivial

end Scaffold

/-! ### The expansion of a comment -/

namespace Expansion

variable {σ : Type} {runner : Runner σ} {e : Expansion} {w w' : World σ} {source directory output : Path}
  {names : List String} {u : Source.Unit} {comment : Source.Node} {xml : String}

-- The README stands only where the project was not refused.
def lateFiles (e : Expansion) (o : Outcome) : List (String × String) :=
  if o.commit.isSome then [(Scaffold.readmeName, e.configuration.project.readme)] else []

-- The files that have been written where an expansion ends well.
def filesOf (e : Expansion) (source : Path) (u : Source.Unit) (xml : String) (o : Outcome) : List (String × String) :=
  if xml.isEmpty then [] else e.earlyFiles source u xml ++ e.lateFiles o

theorem projectXml_tries {l : Leeway} (described : e.normalizer.normalize (Descriptor.ofComment comment.text) = .ok xml) :
    Manages l runner w (fun given => given = xml) (e.projectXml comment) := by
  unfold Normalizer.normalize at described
  unfold projectXml
  split
  · rename_i cause found
    rw [found] at described
    cases described
  · rename_i reading found
    rw [found] at described
    have same : reading.xml e.normalizer = xml := Except.ok.inj described
    split
    · exact .noted fun _ => .value rfl same
    · exact .value rfl same

theorem evict_tries {l : Leeway} : Manages l runner w (fun _ => True) (evict l.base) := by
  have found : Manages l runner w (fun _ => True) (Registry.find l.base) := by
    unfold Registry.find
    exact .now (.value rfl trivial)
  unfold evict
  refine found.quiet fun listed _ _ => ?_
  split
  · exact Registry.release_tries.quiet fun _ _ _ => .value rfl trivial
  · exact .value rfl trivial

theorem deliver_tries (lists : e.Lists source u names) {kept : Source.Unit} :
    Tries (e.leeway source directory names) runner w
      ([(source.name, kept.fullText)] ++ [(Scaffold.readmeName, e.configuration.project.readme)])
      (fun o => [(source.name, kept.fullText)] ++ e.lateFiles o) (fun o => o ≠ .nothing)
      (e.deliver source directory ⟨directory⟩ (directory.join (e.projectName source)) kept) := by
  unfold deliver
  refine Tries.bind (Scaffold.writeSource_tries lists.source) fun _ _ _ => .noted fun _ => ?_
  refine Tries.quiet (Registry.register_tries lists.project rfl) fun refused _ _ => ?_
  cases refused with
  | true => exact .value rfl (by decide)
  | false =>
    have committing {w : World σ} : Tries (e.leeway source directory names) runner w
        [(Scaffold.readmeName, e.configuration.project.readme)]
        (fun _ => [(Scaffold.readmeName, e.configuration.project.readme)]) (fun o : Outcome => o.commit.isSome = true)
        (do
          let _ ← Scaffold.writeReadme ⟨directory⟩ directory e.configuration.project.readme
          return .committed (← (Repository.mk directory).commitStaged e.configuration.commits.identity
            e.configuration.commits.message)) :=
      Tries.last (Scaffold.writeReadme_tries (l := e.leeway source directory names) lists.readme) fun _ _ _ =>
        Tries.quiet (Repository.commitStaged_tries (l := e.leeway source directory names)) fun _ _ _ => .value rfl rfl
    refine committing.mono ?_ fun _ _ => id
    rintro o w' ⟨course, present⟩
    unfold lateFiles
    rw [if_pos present]
    exact ⟨course, fun nothing => by rw [nothing] at present; cases present⟩

-- From where the directory is ready.
theorem fill_tries (lists : e.Lists source u names) :
    Tries (e.leeway source directory names) runner w (e.projectFiles source u xml)
      (fun o => e.earlyFiles source u xml ++ e.lateFiles o) (fun o => o ≠ .nothing) (do
        let projectFile ← e.scaffold.writeProjectFile ⟨directory⟩ directory source.stem xml
        let u ← Scaffold.splitUsings ⟨directory⟩ directory e.configuration.project.globalUsings source.suffix u
        e.deliver source directory ⟨directory⟩ projectFile u) := by
  have parted (late : List (String × String)) : e.earlyFiles source u xml ++ late
      = [(e.projectName source, xml)] ++ (Scaffold.usingFiles (e.configuration.project.globalUsings ++ source.suffix) u
        ++ ([(source.name, (u.without u.usings).fullText)] ++ late)) := by
    unfold earlyFiles projectName
    simp only [List.append_assoc]
  unfold projectFiles
  simp only [parted]
  have filing {w : World σ} : Tries (e.leeway source directory names) runner w [(e.projectName source, xml)]
      (fun _ => [(e.projectName source, xml)]) (fun written => written = directory.join (e.projectName source))
      (e.scaffold.writeProjectFile ⟨directory⟩ directory source.stem xml) :=
    @Scaffold.writeProjectFile_tries σ runner (e.leeway source directory names) w e.scaffold source.stem xml lists.project
  refine Tries.bind filing fun written _ wrote => ?_
  rw [wrote]
  refine Tries.bind (Scaffold.splitUsings_tries fun used => lists.usings ?_) fun kept _ same => ?_
  · intro none
    unfold Source.Unit.distinctUsings at used
    rw [none] at used
    cases used
  · rw [same]
    exact deliver_tries lists

theorem build_tries (lists : e.Lists source u names) :
    Tries (e.leeway source directory names) runner w (e.projectFiles source u xml)
      (fun o => e.earlyFiles source u xml ++ e.lateFiles o) (fun o => o ≠ .nothing)
      (e.build source directory xml u) := by
  unfold build
  refine Tries.quiet Scaffold.prepare_tries fun r _ same => ?_
  subst same
  exact fill_tries lists

theorem expandComment_tries (lists : e.Lists source (u.without [comment]) names) (directory_is : directory = output.join source.stem)
    (described : e.normalizer.normalize (Descriptor.ofComment comment.text) = .ok xml) :
    Tries (e.leeway source directory names) runner w (e.projectFiles source (u.without [comment]) xml)
      (e.filesOf source (u.without [comment]) xml) (fun o => o ≠ .nothing)
      (e.expandComment source output u comment) := by
  unfold expandComment
  dsimp only
  rw [← directory_is]
  refine Tries.quiet (projectXml_tries described) fun given _ same => ?_
  subst same
  unfold filesOf
  split
  · exact .noted fun _ => .value rfl (by decide)
  · exact .noted fun _ => Tries.quiet evict_tries fun _ _ _ => build_tries lists

/-! ### Where an expansion ends -/

section Ends

variable {l : Leeway} {middle : World σ} {tried : List (String × String)} {ended : Option Failure} {f : Failure}
  {result : Except Failure Outcome}

-- A program that answers, judges that it has failed, or is not started by the system.
def Obliging (runner : Runner σ) : Prop :=
  ∀ c g d, (∃ text, (runner c g d).1 = .output text) ∨
    (∃ status complaint, (runner c g d).1 = .failed status complaint) ∨
    ∃ e, (runner c g d).1 = .unavailable e ∧ e.cause ≠ .nullCharacter

-- The failures that are not those of the system or of the version control program: a name leads out of the
-- directory, a path holds a null character, or the project file cannot be decoded when it is registered.
inductive Lasting (l : Leeway) (runner : Runner σ) (w : World σ) : Failure → Prop where
  | outside {name : String} (listed : name ∈ l.names)
      (away : (Repository.mk l.directory).relative? (l.directory.join name) = none) :
      Lasting l runner w (.outside (l.directory.resolve Repository.root))
  | null {p : Path} (holds : p.hasNull = true)
      (named : p = l.directory ∨ (∃ name ∈ l.names, p = l.directory.join name) ∨
        ∃ store, w.registry.path = some store ∧ (p = store ∨ p = store.parent)) :
      Lasting l runner w (.file ⟨.nullCharacter, p.toString⟩)
  | encoding {middle : World σ} {tried : List (String × String)} {content : ByteArray} {d : Disk} {f : Failure}
      (reached : Course l runner w tried none middle)
      (held : (DiskAction.read l.project).run.run middle.disk = (.ok content, d))
      (opened : Registry.openingOf content = .error f) : Lasting l runner w f

theorem attempt_path (attempt : Attempt l runner w tried ended w') : w'.registry.path = w.registry.path := by
  cases attempt with
  | hear n => rw [hear_registry]
  | evict => exact Registry.remove_path
  | _ => rfl

theorem failure?_file {r : Except FileError α} (failed : DiskAction.failure? r = some f) :
    ∃ e, r = .error e ∧ f = .file e := by
  cases r with
  | ok x => cases failed
  | error e => exact ⟨e, rfl, (Option.some.inj failed).symm⟩

theorem attempt_lasting (obliging : Obliging runner) (attempt : Attempt l runner w tried (some f) w')
    (lasts : f.isTransient = false) : Lasting l runner w f := by
  generalize same : some f = ended at attempt
  cases attempt with
  | hear n => cases same
  | look looked =>
    obtain ⟨e, rfl, rfl⟩ := failure?_file same.symm
    exact absurd (Failure.lasting_exact.mp lasts) (DiskAction.clean_pathExists _ _ _ looked)
  | grow sought made =>
    obtain ⟨e, rfl, rfl⟩ := failure?_file same.symm
    obtain ⟨holds, rfl⟩ := DiskAction.null_of_makeDirectories made (Failure.lasting_exact.mp lasts)
    exact .null holds (sought.imp_right fun ⟨store, path, same⟩ => .inr ⟨store, path, .inr same⟩)
  | write listed wrote =>
    obtain ⟨e, rfl, rfl⟩ := failure?_file same.symm
    obtain ⟨holds, rfl⟩ := DiskAction.null_of_write wrote (Failure.lasting_exact.mp lasts)
    exact .null holds (.inr (.inl ⟨_, listed, rfl⟩))
  | mend listed named wrote =>
    obtain ⟨e, rfl, rfl⟩ := failure?_file same.symm
    obtain ⟨holds, rfl⟩ := DiskAction.null_of_write wrote (Failure.lasting_exact.mp lasts)
    exact .null holds (.inr (.inl ⟨_, listed, named⟩))
  | evict => cases same
  | enrol => cases same
  | save path wrote =>
    obtain ⟨e, rfl, rfl⟩ := failure?_file same.symm
    obtain ⟨holds, rfl⟩ := DiskAction.null_of_write wrote (Failure.lasting_exact.mp lasts)
    exact .null holds (.inr (.inr ⟨_, path, .inl rfl⟩))
  | saved => cases same
  | @call c _ =>
    rcases obliging c w.git w.disk with ⟨text, replied⟩ | ⟨status, complaint, replied⟩ | ⟨e, replied, other⟩
    · rw [replied] at same
      cases same
    · rw [replied] at same
      cases same
      cases lasts
    · rw [replied] at same
      cases same
      exact absurd (Failure.lasting_exact.mp lasts) other
  | refuse listed outside =>
    cases same
    exact .outside listed outside
  | read held opened =>
    cases same
    exact .encoding .done held opened

-- What was attempted before the failure does not count. The induction is on the course.
theorem course_lasting (obliging : Obliging runner) (course : Course l runner w tried (some f) w')
    (lasts : f.isTransient = false) : Lasting l runner w f := by
  generalize same : some f = ended at course
  induction course with
  | done => cases same
  | cut last =>
    cases same
    exact attempt_lasting obliging last lasts
  | step first _ ih =>
    cases ih same with
    | outside listed away => exact .outside listed away
    | null holds named =>
      rw [attempt_path first] at named
      exact .null holds named
    | encoding reached held opened => exact .encoding (.step first reached) held opened

theorem attempt_answered (attempt : Attempt l runner w tried none w') :
    ∃ talk, Talk runner w talk w' ∧ ∀ x ∈ talk, ∃ text, x.reply = .output text := by
  generalize same : (none : Option Failure) = ended at attempt
  cases attempt with
  | @call c _ =>
    cases replied : (runner c w.git w.disk).1 with
    | output text =>
      refine ⟨[⟨c, .output text⟩], .asked rfl rfl ?_ (.silent rfl rfl), fun x member => ?_⟩
      · rw [← replied]
      · rw [List.mem_singleton.mp member]
        exact ⟨text, rfl⟩
    | _ =>
      rw [replied] at same
      cases same
  | hear n =>
    have mute : Mute runner w (note n.level n.part n.message) := .noting
    exact ⟨[], mute.silent, List.forall_mem_nil _⟩
  | _ => exact ⟨[], .silent rfl rfl, List.forall_mem_nil _⟩

-- Where nothing has failed, all that was said was answered.
theorem course_answered (course : Course l runner w tried none w') :
    ∃ talk, Talk runner w talk w' ∧ ∀ x ∈ talk, ∃ text, x.reply = .output text := by
  generalize same : (none : Option Failure) = ended at course
  induction course with
  | done => exact ⟨[], .silent rfl rfl, List.forall_mem_nil _⟩
  | cut _ => cases same
  | step first _ ih =>
    obtain ⟨talk, talked, answered⟩ := attempt_answered first
    obtain ⟨more, later, all⟩ := ih same
    refine ⟨talk ++ more, talked.append later, fun x member => ?_⟩
    rcases List.mem_append.mp member with begun | behind
    · exact answered x begun
    · exact all x behind

end Ends

/-! ### The boundary of an expansion -/

variable {result : Except Failure Outcome}

theorem lists_artifactNames : e.Lists source u (e.artifactNames source u) := by
  constructor
  · exact mem_artifactNames.mpr (.inl List.mem_cons_self)
  · exact fun used => mem_artifactNames.mpr (.inr ⟨rfl, used⟩)
  · exact mem_artifactNames.mpr (.inl (List.mem_cons_of_mem _ List.mem_cons_self))
  · exact mem_artifactNames.mpr (.inl (by simp))

-- Where nothing fails an expansion ends well and with something: all calls have been answered, and the files that
-- belong to its end were written one after another. Where something fails, that is the last that was attempted, and
-- the files before it are the first ones of the project. Of a failure of the system or of the version control
-- program comes nothing; any other goes on to the caller, and there are three of them.
theorem boundary_exact {l : Leeway} (obliging : Obliging runner) (directory_is : directory = output.join source.stem)
    (leeway_is : l = e.leeway source directory (e.artifactNames source (u.without [comment])))
    (described : e.normalizer.normalize (Descriptor.ofComment comment.text) = .ok xml)
    (ran : (e.processComment source output u comment).run runner w = (result, w')) :
    (∃ o, result = .ok o ∧ o ≠ .nothing ∧
      Course l runner w (e.filesOf source (u.without [comment]) xml o) none w' ∧
      ∃ talk, Talk runner w talk w' ∧ ∀ x ∈ talk, ∃ text, x.reply = .output text) ∨
    ∃ f tried middle, tried <+: e.projectFiles source (u.without [comment]) xml ∧
      Course l runner w tried (some f) middle ∧
      (f.isTransient = true ∧ result = .ok .nothing ∧ w' = hear (failureNote source f) middle ∨
        f.isTransient = false ∧ result = .error f ∧ w' = middle ∧ Lasting l runner w f) := by
  have tries : Tries l runner w (e.projectFiles source (u.without [comment]) xml)
      (e.filesOf source (u.without [comment]) xml) (fun o => o ≠ .nothing)
      (e.expandComment source output u comment) := by
    rw [leeway_is]
    exact expandComment_tries lists_artifactNames directory_is described
  unfold processComment at ran
  rw [run_tryCatch] at ran
  cases expanded : (e.expandComment source output u comment).run runner w with
  | mk ending middle =>
    rw [expanded] at ran
    cases ending with
    | ok o =>
      cases ran
      obtain ⟨course, something⟩ := tries.well expanded
      exact .inl ⟨o, rfl, something, course, course_answered course⟩
    | error f =>
      obtain ⟨tried, start, course⟩ := tries.failed expanded
      refine .inr ⟨f, tried, middle, start, course, ?_⟩
      dsimp only at ran
      cases transient : f.isTransient with
      | true =>
        rw [transient, if_pos rfl] at ran
        cases ran
        exact .inl ⟨rfl, rfl, rfl⟩
      | false =>
        rw [transient, if_neg Bool.false_ne_true] at ran
        cases ran
        exact .inr ⟨rfl, rfl, rfl, course_lasting obliging course transient⟩

/-! ### At the bench -/

theorem memory_obliging : Obliging Memory.runner := by
  intro c g d
  have turned : Memory.Turn c g d (Memory.runner c g d).1 (Memory.runner c g d).2.1 (Memory.runner c g d).2.2 :=
    Memory.turn
  generalize (Memory.runner c g d).1 = reply, (Memory.runner c g d).2.1 = g', (Memory.runner c g d).2.2 = d' at turned ⊢
  cases turned with
  | refused => exact .inr (.inl ⟨_, _, rfl⟩)
  | performed _ _ _ => exact .inl ⟨_, rfl⟩
  | begun _ _ _ => exact .inl ⟨_, rfl⟩

-- The file for the using directives is to lie beside the directory of the project.
def strayAtBench : Expansion :=
  { atBench with
    configuration := { atBench.configuration with
      project := { atBench.configuration.project with globalUsings := "../x" } } }

def strayLeeway : Leeway :=
  strayAtBench.leeway toolSource ⟨.root, toolHome⟩ ["Tool.csproj", "../x.cs", "Tool.cs", "README.md"]

-- The project file and the stray one have been written when the failure goes on to the caller.
theorem boundary_exact_stray : ∃ tried w',
    (strayAtBench.processComment toolSource ⟨.root, ["work"]⟩ (Source.Unit.ofString toolText) toolComment).run
      Memory.runner (benchWith toolText []) = (.error (.outside ⟨.root, toolHome⟩), w') ∧
    Course strayLeeway Memory.runner (benchWith toolText []) tried (some (.outside ⟨.root, toolHome⟩)) w' ∧
    Lasting strayLeeway Memory.runner (benchWith toolText []) (.outside ⟨.root, toolHome⟩) := by
  have stopped : ((strayAtBench.processComment toolSource ⟨.root, ["work"]⟩ (Source.Unit.ofString toolText)
      toolComment).run Memory.runner (benchWith toolText [])).1 = .error (.outside ⟨.root, toolHome⟩) := by
    decide +kernel
  have described : strayAtBench.normalizer.normalize (Descriptor.ofComment toolComment.text)
      = .ok "<Project Sdk=\"A\" />" := by decide +kernel
  have leeway_is : strayLeeway = strayAtBench.leeway toolSource ⟨.root, toolHome⟩
      (strayAtBench.artifactNames toolSource ((Source.Unit.ofString toolText).without [toolComment])) := by
    have names : strayAtBench.artifactNames toolSource ((Source.Unit.ofString toolText).without [toolComment])
        = ["Tool.csproj", "../x.cs", "Tool.cs", "README.md"] := by decide +kernel
    rw [names]
    rfl
  have directory_is : (⟨.root, toolHome⟩ : Path) = Path.join ⟨.root, ["work"]⟩ toolSource.stem := by decide
  have ran := error_of_result stopped
  rcases boundary_exact memory_obliging directory_is leeway_is described ran with
    ⟨o, ended, _⟩ | ⟨f, tried, middle, _, course, ⟨_, ended, _⟩ | ⟨_, ended, rfl, lasting⟩⟩
  · cases ended
  · cases ended
  · cases ended
    exact ⟨tried, _, ran, course, lasting⟩

end Expansion
end InlineProject
