import InlineProject.Proofs.TouchedFiles
import InlineProject.Proofs.RepeatedRun
/-!
Where a run works. All calls are made in the directory of the project and the files of a run lie in it, unless
a name that was configured leads out of it; then the run fails as soon as the file is written.
-/

namespace InlineProject

open InlineProject.Action InlineProject.Git
open InlineProject.DiskAction (makeDirectories_grown run_pathExists write_file)

variable {σ : Type} {runner : Runner σ} {reach : Reach} {directory : Path} {w w' : World σ}

/-! ### The registry -/

namespace Registry

variable {r : Registry} {file : Path} {xml : String}

theorem keep_ends (path : r.path = w.registry.path) :
    Ends runner reach w (fun _ => True) (keep r) := by
  unfold keep
  have given : Touched reach.near reach.directory w { w with registry := r } :=
    ⟨⟨rfl, path⟩, fun _ _ _ => rfl, [], rfl, nofun⟩
  refine (Ends.modified given).bind fun _ middle ran _ => ?_
  cases ran
  refine Ends.bind (Ends.onDisk fun result d' persisted q _ silent => ?_) fun kept middle stored _ => ?_
  · refine persist_file persisted ?_
    rintro p on rfl
    exact silent (.inr ⟨p, on, rfl⟩)
  · obtain ⟨d', persisted, rfl⟩ := onDisk_parts stored
    exact .modified ⟨⟨rfl, (persist_parts persisted).1⟩, fun _ _ _ => rfl, [], rfl, nofun⟩

theorem release_ends {name : String} : Ends runner reach w (fun _ => True) (release name) := by
  unfold release
  refine .now ?_
  dsimp only
  split
  · refine Ends.noting.bind fun _ middle told _ => ?_
    cases told
    refine Ends.bind (keep_ends ?_) fun _ _ _ _ => .value trivial
    rw [remove_path, SameOutlets.hear.path]
  · exact .value trivial

theorem openProject_ends : Ends runner reach w (fun _ => True) (openProject file) := by
  unfold openProject
  refine .now ?_
  split
  · split
    · exact .value trivial
    · exact .failure
  · exact .value trivial

theorem pathExists_ends {p : Path} :
    Ends runner reach w (fun _ => True) (Action.onDisk (DiskAction.pathExists p)) := by
  refine .onDisk fun result d' ran q _ _ => ?_
  rw [run_pathExists] at ran
  cases seen : w.disk.look p <;> rw [seen] at ran <;> cases ran <;> rfl

theorem enroll_ends : Ends runner reach w (fun _ => True) (enroll file) := by
  unfold enroll
  refine openProject_ends.bind fun opening _ _ _ => ?_
  cases opening with
  | unreadable reason => exact .noted fun _ => .value trivial
  | otherMarkup => exact .noted fun _ => .value trivial
  | project =>
    refine .now ?_
    refine Ends.bind (keep_ends rfl) fun _ _ _ _ => ?_
    exact .noted fun _ => .noted fun _ => .value trivial

-- A project file that is missing is written by default.
theorem register_ends (near : reach.near file.place) :
    Ends runner reach w (fun _ => True) (register file xml) := by
  rw [register_eq]
  refine pathExists_ends.bind fun there _ _ _ => ?_
  cases there with
  | true => exact enroll_ends
  | false =>
    refine Ends.bind (Ends.onDisk fun result d' wrote q away _ => ?_) fun _ _ _ _ => enroll_ends
    refine write_file wrote ?_
    rintro rfl
    exact away near

end Registry

/-! ### The repository -/

namespace Git.Repository

variable {r : Repository}

theorem command_ends (confined : reach.Confines runner) (here : r.directory = reach.directory)
    {arguments : List String} : Ends runner reach w (fun _ => True) (r.command arguments) := by
  unfold command
  exact (Ends.callGit confined here).bind fun _ _ _ _ => .value trivial

theorem query_ends (confined : reach.Confines runner) (here : r.directory = reach.directory)
    {arguments : List String} : Ends runner reach w (fun _ => True) (r.query arguments) :=
  .callGit confined here

theorem head_ends (confined : reach.Confines runner) (here : r.directory = reach.directory) :
    Ends runner reach w (fun _ => True) r.head := by
  unfold head
  refine (query_ends confined here).bind fun _ _ _ _ => ?_
  exact (query_ends confined here).bind fun _ _ _ _ => .value trivial

theorem commit_ends (confined : reach.Confines runner) (here : r.directory = reach.directory)
    {message : String} {identity : Identity} {allowEmpty : Bool} :
    Ends runner reach w (fun _ => True) (r.commit message identity allowEmpty) := by
  unfold commit
  exact (Ends.callGit confined here).bind fun _ _ _ _ => head_ends confined here

theorem create_ends (confined : reach.Confines runner) (here : directory = reach.directory)
    {identity : Identity} {message : String} :
    Ends runner reach w (fun r => r = ⟨directory⟩) (create directory identity message) := by
  unfold create
  refine (command_ends confined here).bind fun _ _ _ _ => ?_
  exact (commit_ends confined here).bind fun _ _ _ _ => .value rfl

theorem isDirty_ends (confined : reach.Confines runner) (here : r.directory = reach.directory) :
    Ends runner reach w (fun _ => True) r.isDirty := by
  unfold isDirty
  exact (query_ends confined here).bind fun _ _ _ _ => .value trivial

theorem restore_ends (confined : reach.Confines runner) (here : r.directory = reach.directory) :
    Ends runner reach w (fun _ => True) r.restore := by
  unfold restore
  exact (command_ends confined here).bind fun _ _ _ _ => command_ends confined here

theorem commitStaged_ends (confined : reach.Confines runner) (here : r.directory = reach.directory)
    {identity : Identity} {message : String} :
    Ends runner reach w (fun _ => True) (r.commitStaged identity message) := by
  have staging : Ends runner reach w (fun _ => True) r.staged := by
    unfold staged
    exact (query_ends confined here).bind fun _ _ _ _ => .value trivial
  unfold commitStaged
  refine staging.bind fun files _ _ _ => ?_
  split
  · refine (head_ends confined here).bind fun _ _ _ _ => ?_
    exact .noted fun _ => .value trivial
  · refine (commit_ends confined here).bind fun _ _ _ _ => ?_
    exact .noted fun _ => .value trivial

end Git.Repository

/-! ### The files of a project -/

namespace Scaffold

open InlineProject.Git.Repository

variable {s : Scaffold} {r : Repository} {file : Path} {content : String}

theorem prepare_ends (confined : reach.Confines runner) (here : directory = reach.directory) :
    Ends runner reach w (fun r => r = ⟨directory⟩) (s.prepare directory) := by
  unfold prepare
  refine Registry.pathExists_ends.bind fun there middle _ _ => ?_
  cases there with
  | false =>
    refine Ends.bind (Ends.onDisk fun result d' made q _ _ => ?_) fun _ _ _ _ => ?_
    · exact (makeDirectories_grown made).file?
    · exact .noted fun _ => create_ends confined here
  | true =>
    refine Registry.pathExists_ends.bind fun kept middle _ _ => ?_
    cases kept with
    | false => exact .noted fun _ => create_ends confined here
    | true =>
      refine (isDirty_ends confined here).bind fun dirty _ _ _ => ?_
      cases dirty with
      | false => exact .value rfl
      | true =>
        refine .noted fun _ => ?_
        exact (restore_ends confined here).bind fun _ _ _ _ => .value rfl

-- What has been written and cannot be taken in stays, and the run has failed for good.
theorem writeStaged_ends (confined : reach.Confines runner) (here : directory = reach.directory) (far : reach.far file.place)
    (near : ((Repository.mk directory).relative? file).isSome = true → reach.near file.place) :
    Ends runner reach w (fun _ => reach.near file.place)
      (writeStaged ⟨directory⟩ file content) := by
  unfold writeStaged stage
  cases relative : (Repository.mk directory).relative? file with
  | some p =>
    have inside : reach.near file.place := near (by rw [relative]; rfl)
    refine Ends.bind (Ends.onDisk fun result d' wrote q away _ => ?_) fun _ _ _ _ => ?_
    · refine write_file wrote ?_
      rintro rfl
      exact away inside
    · exact (command_ends confined here).mono fun _ _ => inside
  | none =>
    dsimp only
    refine ⟨fun ran => ?_, fun ran => ?_⟩
    · obtain ⟨_, _, _, ended⟩ := bind_parts ran
      cases ended
    · rw [Action.run_bind, run_onDisk] at ran
      cases wrote : (DiskAction.write file content.toUTF8).run.run w.disk with
      | mk result d' =>
        rw [wrote] at ran
        cases result with
        | ok _ =>
          cases ran
          refine .inr ⟨rfl, .of_disk fun q away _ => write_file wrote ?_⟩
          rintro rfl
          exact away far
        | error e =>
          cases ran
          rcases DiskAction.write_cases wrote with ⟨_, rfl⟩ | ⟨ended, _⟩
          · exact .inl .refl
          · cases ended

theorem writeProjectFile_ends (confined : reach.Confines runner) (here : directory = reach.directory) {name xml : String}
    (file_is : file = directory.join (name ++ s.extension)) (far : reach.far file.place)
    (near : ((Repository.mk directory).relative? file).isSome = true → reach.near file.place) :
    Ends runner reach w (fun written => written = file ∧ reach.near file.place)
      (s.writeProjectFile ⟨directory⟩ directory name xml) := by
  subst file_is
  unfold writeProjectFile
  refine (writeStaged_ends confined here far near).bind fun _ _ _ inside => ?_
  exact .noted fun _ => .value ⟨rfl, inside⟩

theorem noteUsings_ends {directives : List Source.Node} :
    Ends runner reach w (fun _ => True) (noteUsings directives) := by
  induction directives generalizing w with
  | nil => exact .value trivial
  | cons n rest ih =>
    unfold noteUsings
    exact .noted fun _ => ih

theorem splitUsings_ends (confined : reach.Confines runner) (here : directory = reach.directory) {stem suffix : String} {u : Source.Unit}
    (file_is : file = directory.join (stem ++ suffix)) (far : reach.far file.place)
    (near : ((Repository.mk directory).relative? file).isSome = true → reach.near file.place) :
    Ends runner reach w (fun _ => True)
      (splitUsings ⟨directory⟩ directory stem suffix u) := by
  subst file_is
  unfold splitUsings
  dsimp only
  split
  · exact .value trivial
  · refine noteUsings_ends.bind fun _ _ _ _ => ?_
    refine (writeStaged_ends confined here far near).bind fun _ _ _ _ => ?_
    exact .noted fun _ => .value trivial

theorem writeSource_ends (confined : reach.Confines runner) (here : directory = reach.directory) {name : String} {u : Source.Unit}
    (file_is : file = directory.join name) (far : reach.far file.place)
    (near : ((Repository.mk directory).relative? file).isSome = true → reach.near file.place) :
    Ends runner reach w (fun _ => True)
      (writeSource ⟨directory⟩ directory name u) := by
  subst file_is
  unfold writeSource
  refine (writeStaged_ends confined here far near).bind fun _ _ _ _ => ?_
  exact .noted fun _ => .value trivial

theorem writeReadme_ends (confined : reach.Confines runner) (here : directory = reach.directory)
    (file_is : file = directory.join readmeName) (far : reach.far file.place)
    (near : ((Repository.mk directory).relative? file).isSome = true → reach.near file.place) :
    Ends runner reach w (fun _ => True)
      (writeReadme ⟨directory⟩ directory content) := by
  subst file_is
  unfold writeReadme
  exact (writeStaged_ends confined here far near).bind fun _ _ _ _ => .value trivial

end Scaffold

/-! ### The expansion of a file -/

namespace Expansion

variable {e : Expansion} {source output file : Path} {touches : Place → Prop}
  {u : Source.Unit} {d : Source.Node} {asked : Option Path}

-- The names of all files that the project of a source may have.
def possibleNames (e : Expansion) (source : Path) : List String :=
  [e.projectName source, e.configuration.project.globalUsings ++ source.suffix, source.name,
    Scaffold.readmeName]

-- A run may touch the files of the project; what cannot be taken into the repository of the project ends it.
def projectReach (e : Expansion) (source directory : Path) (touches : Place → Prop) : Reach where
  directory := directory
  near q := touches q ∨ ∃ name ∈ e.possibleNames source,
    q = (directory.join name).place ∧
      ((Repository.mk directory).relative? (directory.join name)).isSome = true
  far q := touches q ∨ ∃ name ∈ e.possibleNames source, q = (directory.join name).place
  within _ := Or.imp_right fun ⟨name, listed, at_place, _⟩ => ⟨name, listed, at_place⟩

theorem projectReach_far {name : String} (listed : name ∈ e.possibleNames source) :
    (e.projectReach source directory touches).far (directory.join name).place :=
  .inr ⟨name, listed, rfl⟩

theorem projectReach_near {name : String} (listed : name ∈ e.possibleNames source)
    (inside : ((Repository.mk directory).relative? (directory.join name)).isSome = true) :
    (e.projectReach source directory touches).near (directory.join name).place :=
  .inr ⟨name, listed, rfl, inside⟩

theorem confines_reach
    (touching : ∀ c g d q, c.directory = directory → ¬touches q →
      (runner c g d).2.2.file? q = d.file? q) :
    (e.projectReach source directory touches).Confines runner :=
  fun c g d q here away => touching c g d q here fun touched => away (.inl touched)

theorem projectXml_ends : Ends runner reach w (fun _ => True) (e.projectXml d) := by
  unfold projectXml
  split
  · exact .failure
  · split
    · exact .noted fun _ => .value trivial
    · exact .value trivial

theorem evict_ends {name : String} : Ends runner reach w (fun _ => True) (evict name) := by
  have found : Ends runner reach w (fun _ => True) (Registry.find name) := by
    unfold Registry.find
    exact .now (.value trivial)
  unfold evict
  refine found.bind fun listed _ _ _ => ?_
  split
  · exact Registry.release_ends.bind fun _ _ _ _ => .value trivial
  · exact .value trivial

theorem deliver_ends (confined : (e.projectReach source directory touches).Confines runner)
    (near : (e.projectReach source directory touches).near file.place) :
    Ends runner (e.projectReach source directory touches) w (fun _ => True)
      (e.deliver source directory ⟨directory⟩ file u) := by
  have listed : source.name ∈ e.possibleNames source := by simp [possibleNames]
  have readme : Scaffold.readmeName ∈ e.possibleNames source := by simp [possibleNames]
  unfold deliver
  refine Ends.bind (Scaffold.writeSource_ends confined rfl rfl (projectReach_far listed) (projectReach_near listed))
    fun _ _ _ _ => ?_
  refine .noted fun _ => ?_
  refine Ends.bind (Registry.register_ends near) fun refused _ _ _ => ?_
  cases refused with
  | true => exact .value trivial
  | false =>
    refine Ends.bind (Scaffold.writeReadme_ends confined rfl rfl (projectReach_far readme) (projectReach_near readme))
      fun _ _ _ _ => ?_
    exact Ends.bind (Repository.commitStaged_ends confined rfl) fun _ _ _ _ => .value trivial

theorem build_ends (confined : (e.projectReach source directory touches).Confines runner) {xml : String} :
    Ends runner (e.projectReach source directory touches) w (fun _ => True)
      (e.build source directory xml u) := by
  have project : e.projectName source ∈ e.possibleNames source := by simp [possibleNames]
  have usings : e.configuration.project.globalUsings ++ source.suffix ∈ e.possibleNames source := by
    simp [possibleNames]
  unfold build
  refine Ends.bind (Scaffold.prepare_ends confined rfl) fun r _ _ same => ?_
  subst same
  refine Ends.bind (Scaffold.writeProjectFile_ends confined rfl rfl (projectReach_far project) (projectReach_near project))
    fun written _ _ wrote => ?_
  have near := wrote.2
  rw [wrote.1]
  refine Ends.bind (Scaffold.splitUsings_ends confined rfl rfl (projectReach_far usings) (projectReach_near usings))
    fun _ _ _ _ => ?_
  exact deliver_ends confined near

theorem expandComment_ends
    (confined : (e.projectReach source (output.join source.stem) touches).Confines runner) :
    Ends runner (e.projectReach source (output.join source.stem) touches) w (fun _ => True)
      (e.expandComment source output u d) := by
  unfold expandComment
  dsimp only
  refine projectXml_ends.bind fun xml _ _ _ => ?_
  split
  · exact .noted fun _ => .value trivial
  · refine .noted fun _ => ?_
    exact evict_ends.bind fun _ _ _ _ => build_ends confined

theorem processComment_ends
    (confined : (e.projectReach source (output.join source.stem) touches).Confines runner) :
    Ends runner (e.projectReach source (output.join source.stem) touches) w (fun _ => True)
      (e.processComment source output u d) := by
  unfold processComment
  refine (expandComment_ends confined).tryCatch (fun f _ transient => ?_) fun f lasting => ?_
  · rw [transient, if_pos rfl]
    exact .noted fun _ => .value trivial
  · rw [lasting]
    rfl

theorem firstHandled_ends
    (confined : (e.projectReach source (output.join source.stem) touches).Confines runner)
    {comments : List Source.Node} :
    Ends runner (e.projectReach source (output.join source.stem) touches) w (fun _ => True)
      (Descriptor.firstHandled (e.processComment source output u) comments) := by
  induction comments generalizing w with
  | nil => exact .value trivial
  | cons comment rest ih =>
    unfold Descriptor.firstHandled
    refine Ends.bind (processComment_ends confined) fun outcome _ _ _ => ?_
    split
    · exact .value trivial
    · exact ih

-- Before the output is known nothing is touched that could not be afterwards.
theorem processFileBy_ends {parse : String → Source.Unit} (source_is : source = file.resolve e.here)
    (output_is : output = e.outputOf file asked) (directory_is : directory = output.join source.stem)
    (confined : (e.projectReach source directory touches).Confines runner) :
    Ends runner (e.projectReach source directory touches) w (fun _ => True)
      (e.processFileBy parse file asked) := by
  rw [directory_is] at confined ⊢
  have resolving {here p : Path} {w : World σ} :
      Ends runner (e.projectReach source (output.join source.stem) touches) w (fun _ => True)
        (Action.onDisk (DiskAction.resolve here p)) := by
    refine .onDisk fun result d' ran q _ _ => ?_
    unfold DiskAction.resolve at ran
    split at ran <;> cases ran <;> rfl
  unfold processFileBy
  refine resolving.bind fun resolved middle ran _ => ?_
  obtain ⟨rfl, rfl⟩ := resolve_parts ran
  subst source_is
  refine .noted fun _ => .now ?_
  split
  · exact .noted fun _ => .value trivial
  · split
    · exact .noted fun _ => .value trivial
    · unfold processUnit
      have placing {w : World σ} : Ends runner
          (e.projectReach (file.resolve e.here) (output.join (file.resolve e.here).stem) touches) w
          (fun _ => True) (e.outputFor (file.resolve e.here) asked) := by
        unfold outputFor
        split
        · exact resolving
        · exact .value trivial
      refine placing.bind fun place _ placed _ => ?_
      have same : place = output := (outputFor_parts placed).1.trans output_is.symm
      subst same
      refine Ends.bind (firstHandled_ends confined) fun outcome _ _ _ => ?_
      split
      · exact .noted fun _ => .value trivial
      · exact .noted fun _ => .value trivial

end Expansion
end InlineProject
