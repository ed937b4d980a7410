import InlineProject.Proofs.ExpansionRun
import InlineProject.Proofs.TwinWorlds
/-!
Runs in worlds that a project cannot tell apart. Each part of the expansion goes the same way in both and leaves worlds
that the project cannot tell apart either.
-/

namespace InlineProject

open InlineProject.Action InlineProject.Git
open InlineProject.DiskAction (Grown OnWay run_pathExists makeDirectories_grown makeDirectories_made)

variable {σ μ : Type} {memory : σ → Place → μ} {directory : Path} {base : String} {runner : Runner σ} {w w' : World σ}

/-! ### The repository -/

namespace Git.Repository

variable {identity : Identity} {message : String} {allowEmpty : Bool} {arguments : List String} {file : Path}
  (loc : Local runner memory) (homed : Homed memory directory base w w')

include loc homed

theorem command_along : Along (Homed memory directory base) runner w w' ((Repository.mk directory).command arguments) := by
  unfold command
  exact (homed.asked loc rfl).bind fun _ _ _ homed => .value homed

theorem query_along : Along (Homed memory directory base) runner w w' ((Repository.mk directory).query arguments) :=
  homed.asked loc rfl

theorem head_along : Along (Homed memory directory base) runner w w' (Repository.mk directory).head := by
  unfold head
  exact (query_along loc homed).bind fun _ _ _ homed =>
    (query_along loc homed).bind fun _ _ _ homed => .value homed

theorem commit_along : Along (Homed memory directory base) runner w w'
    ((Repository.mk directory).commit message identity allowEmpty) := by
  unfold commit
  exact (homed.asked loc rfl).bind fun _ _ _ homed => head_along loc homed

theorem create_alike : Alike (fun r v v' => r = ⟨directory⟩ ∧ Homed memory directory base v v')
    (Homed memory directory base) ((create directory identity message).run runner w)
    ((create directory identity message).run runner w') := by
  unfold create
  exact (command_along loc homed).bind fun _ _ _ homed =>
    (commit_along loc homed).bind fun _ _ _ homed => .value ⟨rfl, homed⟩

theorem isDirty_along : Along (Homed memory directory base) runner w w' (Repository.mk directory).isDirty := by
  unfold isDirty
  exact (query_along loc homed).bind fun _ _ _ homed => .value homed

theorem restore_along : Along (Homed memory directory base) runner w w' (Repository.mk directory).restore := by
  unfold restore
  exact (command_along loc homed).bind fun _ _ _ homed => command_along loc homed

theorem stage_along : Along (Homed memory directory base) runner w w' ((Repository.mk directory).stage file) := by
  unfold stage
  cases (Repository.mk directory).relative? file with
  | some p => exact command_along loc homed
  | none => exact .failure rfl homed

theorem commitStaged_along : Along (Homed memory directory base) runner w w'
    ((Repository.mk directory).commitStaged identity message) := by
  have listing : Along (Homed memory directory base) runner w w' (Repository.mk directory).staged := by
    unfold staged
    exact (query_along loc homed).bind fun _ _ _ homed => .value homed
  unfold commitStaged
  refine listing.bind fun files _ _ homed => ?_
  split
  · exact (head_along loc homed).bind fun _ _ _ homed => .noted (.value homed.hear)
  · exact (commit_along loc homed).bind fun _ _ _ homed => .noted (.value homed.hear)

end Git.Repository

/-! ### The files of a project -/

namespace Scaffold

open InlineProject.Git.Repository

variable {s : Scaffold} {name stem suffix xml content : String} {u : Source.Unit} (loc : Local runner memory)

section Homed

variable (homed : Homed memory directory base w w')

include loc homed

theorem writeStaged_along (step : Path.Downward name) : Along (Homed memory directory base) runner w w'
    (writeStaged ⟨directory⟩ (directory.join name) content) := by
  unfold writeStaged
  exact (homed.wrote step).bind fun _ _ _ homed => stage_along loc homed

theorem writeProjectFile_alike (step : Path.Downward (name ++ s.extension)) :
    Alike (fun file v v' => file = directory.join (name ++ s.extension) ∧ Homed memory directory base v v')
      (Homed memory directory base) ((s.writeProjectFile ⟨directory⟩ directory name xml).run runner w)
      ((s.writeProjectFile ⟨directory⟩ directory name xml).run runner w') := by
  unfold writeProjectFile
  exact (writeStaged_along loc homed step).bind fun _ _ _ homed => .noted (.value ⟨rfl, homed.hear⟩)

omit loc in
theorem noteUsings_along {directives : List Source.Node} : Along (Homed memory directory base) runner w w'
    (noteUsings directives) := by
  induction directives generalizing w w' with
  | nil => exact .value homed
  | cons n rest ih =>
    unfold noteUsings
    exact .noted (ih homed.hear)

theorem splitUsings_along (step : Path.Downward (stem ++ suffix)) : Along (Homed memory directory base) runner w w'
    (splitUsings ⟨directory⟩ directory stem suffix u) := by
  unfold splitUsings
  dsimp only
  split
  · exact .value homed
  · refine (noteUsings_along homed).bind fun _ _ _ homed => ?_
    exact (writeStaged_along loc homed step).bind fun _ _ _ homed => .noted (.value homed.hear)

theorem writeSource_along (step : Path.Downward name) : Along (Homed memory directory base) runner w w'
    (writeSource ⟨directory⟩ directory name u) := by
  unfold writeSource
  exact (writeStaged_along loc homed step).bind fun _ _ _ homed => .noted (.value homed.hear)

theorem writeReadme_along : Along (Homed memory directory base) runner w w'
    (writeReadme ⟨directory⟩ directory content) := by
  unfold writeReadme
  exact (writeStaged_along loc homed ⟨by decide, by decide⟩).bind fun _ _ _ homed => .value homed

end Homed

/-! ### The directory -/

-- Directories have come on the way, but not the one of the project.
theorem unmade_unnoticed {d : Disk} {e : FileError} (lone : Lone directory w)
    (failed : (DiskAction.makeDirectories false directory).run.run w.disk = (.error e, d)) :
    Unnoticed memory directory base w { w with disk := d } := by
  have grown := makeDirectories_grown failed
  refine ⟨⟨rfl, rfl⟩, grown.sound, fun q inside => ?_, fun q _ => congrArg Option.isSome grown.file?,
    fun q _ => grown.directory, rfl, rfl⟩
  exact DiskAction.makeDirectories_failed lone.sound failed fun on => lone.entered q on inside

theorem made_reached {d d' : Disk} (twin : Twin memory directory base w w')
    (made : (DiskAction.makeDirectories false directory).run.run w.disk = (.ok (), d))
    (made' : (DiskAction.makeDirectories false directory).run.run w'.disk = (.ok (), d')) :
    Homed memory directory base { w with disk := d } { w' with disk := d' } := by
  have lone {v : World σ} {d : Disk} (lone : Lone directory v)
      (made : (DiskAction.makeDirectories false directory).run.run v.disk = (.ok (), d)) :
      Lone directory { v with disk := d } := by
    have grown := makeDirectories_grown made
    exact ⟨grown.sound lone.sound, lone.apart.outlets ⟨rfl, rfl⟩, lone.unstored, lone.entered,
      fun q on => (lone.steps q on).imp_right grown.directory⟩
  have stands {d d' : Disk} (made : (DiskAction.makeDirectories false directory).run.run d = (.ok (), d')) :
      d'.locate directory = .ok directory.place ∧ d'.item? directory.place = some .directory := by
    obtain ⟨_, _, last⟩ := makeDirectories_made made
    exact last.located
  have below {d d' : Disk} (made : (DiskAction.makeDirectories false directory).run.run d = (.ok (), d')) {q : Place}
      (inside : directory.place <+: q) (other : q ≠ directory.place) : d'.item? q = d.item? q := by
    refine ((makeDirectories_grown made).entry q).resolve_right fun ⟨_, _, on⟩ => ?_
    rcases DiskAction.onWay_cases on with before | last
    · exact twin.left.entered q before inside
    · exact other last
  refine ⟨⟨lone twin.left made, lone twin.right made', fun q inside => ?_, fun q on => ?_, twin.known, twin.entry⟩,
    (stands made).1, by rw [(stands made).2]; rfl⟩
  · by_cases last : q = directory.place
    · rw [last, (stands made).2, (stands made').2]
    · rw [below made inside last, below made' inside last, twin.inside q inside]
  · rw [(makeDirectories_grown made).file?, (makeDirectories_grown made').file?, twin.way q on]

theorem prepare_absent (seen : w.disk.look directory = .ok none) : (s.prepare directory).run runner w = (do
    Action.onDisk (DiskAction.makeDirectories false directory)
    Action.note .info part ("Created project directory " ++ directory.toString)
    s.create directory : Action σ Repository).run runner w := by
  rw [prepare_run, seen]

theorem isTransient_file {e : FileError} {null : Bool} (caused : e.cause = .nullCharacter ↔ null = true) :
    (Failure.file e).isTransient = !null := by
  unfold Failure.isTransient
  cases null with
  | true => exact decide_eq_false (not_not_intro (caused.mpr rfl))
  | false => exact decide_eq_true fun same => Bool.false_ne_true (caused.mp same)

-- A path that cannot be gone is not gone in any world.
theorem prepare_blocked (lone : Lone directory w)
    (blocked : ¬(directory.hasNull = false ∧ Disk.Fit directory.parts)) :
    ∃ f v, (s.prepare directory).run runner w = (.error f, v) ∧ f.isTransient = !directory.hasNull ∧
      Unnoticed memory directory base w v := by
  cases seen : w.disk.look directory with
  | error e =>
    obtain ⟨long, clean⟩ := Disk.look_error seen
    refine ⟨.file e, w, prepare_run.trans (by rw [seen]), isTransient_file ?_, .refl⟩
    rw [long, clean]
    exact iff_of_false nofun Bool.false_ne_true
  | ok item =>
    have unreached : ∀ {d : Disk}, d.locate directory ≠ .ok directory.place := fun located => by
      obtain ⟨clean, _, _, fit⟩ := Disk.locate_exact.mp located
      exact blocked ⟨clean, fit⟩
    cases item with
    | some item => exact absurd (Disk.look_some seen).1 unreached
    | none =>
      cases made : (DiskAction.makeDirectories false directory).run.run w.disk with
      | mk result d =>
        cases result with
        | ok _ =>
          obtain ⟨_, _, last⟩ := makeDirectories_made made
          exact absurd last.located.1 unreached
        | error e =>
          have failed : (Action.onDisk (DiskAction.makeDirectories false directory)).run runner w
              = (.error (.file e), { w with disk := d }) := by rw [run_onDisk, made]
          exact ⟨.file e, _, (prepare_absent seen).trans (bind_error failed),
            isTransient_file (DiskAction.makeDirectories_cause lone.sound made), unmade_unnoticed lone made⟩

-- Where nothing is there yet the directory can be made in both worlds or in neither.
theorem prepare_fresh (loc : Local runner memory) (twin : Twin memory directory base w w')
    (clean : directory.hasNull = false) (fit : Disk.Fit directory.parts)
    (absent : w.disk.item? directory.place = none) :
    Alike (fun r v v' => r = ⟨directory⟩ ∧ Homed memory directory base v v') (Twin memory directory base)
      ((s.prepare directory).run runner w) ((s.prepare directory).run runner w') := by
  have absent' : w'.disk.item? directory.place = none := (twin.inside _ List.prefix_rfl).trans absent
  have unseen {d : Disk} (absent : d.item? directory.place = none) : d.look directory = .ok none := by
    obtain ⟨item, seen⟩ := Disk.look_fit fit
    cases item with
    | none => exact seen
    | some item =>
      rw [(Disk.look_some seen).2] at absent
      cases absent
  have off : directory.place ∉ directory.trail := fun on => twin.left.entered _ on List.prefix_rfl
  have free : (∀ q ∈ directory.trail, w'.disk.file? q = none) ↔ ∀ q ∈ directory.trail, w.disk.file? q = none := by
    refine forall₂_congr fun q on => ?_
    rw [← Option.not_isSome_iff_eq_none, ← Option.not_isSome_iff_eq_none, twin.way q on]
  have both : (∃ d, (DiskAction.makeDirectories false directory).run.run w'.disk = (.ok (), d)) ↔
      ∃ d, (DiskAction.makeDirectories false directory).run.run w.disk = (.ok (), d) := by
    rw [DiskAction.makeDirectories_exact twin.right.sound off, DiskAction.makeDirectories_exact twin.left.sound off]
    exact ⟨fun ⟨⟨_, _, open'⟩, _⟩ => ⟨⟨clean, fit, free.mp open'⟩, absent⟩,
      fun ⟨⟨_, _, opened⟩, _⟩ => ⟨⟨clean, fit, free.mpr opened⟩, absent'⟩⟩
  have making : Alike (fun _ => Homed memory directory base) (Twin memory directory base)
      ((Action.onDisk (DiskAction.makeDirectories false directory)).run runner w)
      ((Action.onDisk (DiskAction.makeDirectories false directory)).run runner w') := by
    rw [run_onDisk, run_onDisk]
    cases made : (DiskAction.makeDirectories false directory).run.run w.disk with
    | mk result d =>
      cases made' : (DiskAction.makeDirectories false directory).run.run w'.disk with
      | mk result' d' =>
        cases result with
        | ok _ =>
          obtain ⟨again, done⟩ := both.mpr ⟨d, made⟩
          rw [done] at made'
          cases made'
          exact .well (made_reached twin made done)
        | error e =>
          cases result' with
          | ok _ =>
            obtain ⟨again, done⟩ := both.mp ⟨d', made'⟩
            rw [done] at made
            cases made
          | error e' =>
            refine .failed ?_ (twin.onward (unmade_unnoticed twin.left made) (unmade_unnoticed twin.right made'))
            rw [isTransient_file (DiskAction.makeDirectories_cause twin.left.sound made),
              isTransient_file (DiskAction.makeDirectories_cause twin.right.sound made')]
  rw [prepare_absent (unseen absent), prepare_absent (unseen absent')]
  exact making.bind fun _ _ _ homed => .noted ((create_alike loc homed.hear).mono (fun _ _ _ => id) fun _ _ => Homed.toTwin)

theorem prepare_alike (loc : Local runner memory) (twin : Twin memory directory base w w') :
    Alike (fun r v v' => r = ⟨directory⟩ ∧ Homed memory directory base v v') (Twin memory directory base)
      ((s.prepare directory).run runner w) ((s.prepare directory).run runner w') := by
  by_cases clear : directory.hasNull = false ∧ Disk.Fit directory.parts
  · obtain ⟨clean, fit⟩ := clear
    cases there : w.disk.item? directory.place with
    | none => exact prepare_fresh loc twin clean fit there
    | some item =>
      have present : (w.disk.item? directory.place).isSome = true := by
        rw [there]
        rfl
      have homed : Homed memory directory base w w' :=
        ⟨twin, Disk.locate_exact.mpr ⟨clean, rfl, twin.left.reaches present, fit⟩, present⟩
      have seen : w.disk.look directory = .ok (some item) := by rw [Disk.look_located homed.located, there]
      have seen' : w'.disk.look directory = .ok (some item) := by
        rw [Disk.look_located homed.located', twin.inside _ List.prefix_rfl, there]
      refine Alike.mono ?_ (fun _ _ _ => id) fun _ _ => Homed.toTwin
      unfold prepare
      rw [bind_ok (pathExists_run.trans (by rw [seen])), bind_ok (pathExists_run.trans (by rw [seen'])), Option.isSome_some]
      simp only [Bool.not_true, Bool.false_eq_true, if_false]
      have kept : Along (Homed memory directory base) runner w w' (Action.onDisk (Git.existsAt directory)) :=
        homed.seen ⟨by decide, by decide⟩
      refine kept.bind fun kept _ _ homed => ?_
      cases kept with
      | false => exact .noted (create_alike loc homed.hear)
      | true =>
        refine (isDirty_along loc homed).bind fun dirty _ _ homed => ?_
        cases dirty with
        | false => exact .value ⟨rfl, homed⟩
        | true =>
          exact .noted ((restore_along loc homed.hear).bind fun _ _ _ homed => .value ⟨rfl, homed⟩)
  · have blocked {v : World σ} (lone : Lone directory v) : ∃ f u, (s.prepare directory).run runner v = (.error f, u) ∧
        f.isTransient = !directory.hasNull ∧ Unnoticed memory directory base v u := prepare_blocked lone clear
    obtain ⟨f, v, ran, passed, unnoticed⟩ := blocked twin.left
    obtain ⟨f', v', ran', passed', unnoticed'⟩ := blocked twin.right
    rw [ran, ran']
    exact .failed (passed'.trans passed.symm) (twin.onward unnoticed unnoticed')

end Scaffold

/-! ### The registry -/

namespace Registry

variable {name xml : String} {r : Registry}

theorem keep_unstored (unstored : r.path = none) : (keep r).run runner w = (.ok (), { w with registry := r }) := by
  rw [keep_run, persist_unstored unstored]

theorem remove_fst (name : Text) : (r.remove name).1 = (r.find? name).isSome := by
  unfold remove
  cases (r.find? name).isSome <;> rfl

theorem release_along (twin : Twin memory directory base w w') :
    Along (Twin memory directory base) runner w w' (release base) := by
  have both : (w'.registry.remove (Text.ofString base)).1 = (w.registry.remove (Text.ofString base)).1 := by
    rw [remove_fst, remove_fst, ← timeless_isSome, ← timeless_isSome, twin.entry]
  unfold release
  refine .now ?_
  dsimp only
  rw [both]
  cases (w.registry.remove (Text.ofString base)).1 with
  | false => exact .value twin
  | true =>
    have path : (w.registry.remove (Text.ofString base)).2.path = none := remove_path.trans twin.left.unstored
    have path' : (w'.registry.remove (Text.ofString base)).2.path = none := remove_path.trans twin.right.unstored
    have kept {n m : Note} : Parallel (Twin memory directory base)
        ((keep (w.registry.remove (Text.ofString base)).2).run runner (hear n w))
        ((keep (w'.registry.remove (Text.ofString base)).2).run runner (hear m w')) := by
      rw [keep_unstored path, keep_unstored path']
      refine .well (twin.hear.enrolled path path' ?_)
      rw [timeless_remove, timeless_remove, if_pos rfl, if_pos rfl]
    exact .noted (kept.bind fun _ _ _ twin => .value twin)

section Homed

variable (homed : Homed memory directory base w w')

include homed

theorem openProject_along (step : Path.Downward name) : Along (Homed memory directory base) runner w w'
    (openProject (directory.join name)) := by
  have same : ((DiskAction.read (directory.join name)).run.run w'.disk).1
      = ((DiskAction.read (directory.join name)).run.run w.disk).1 :=
    DiskAction.read_congr (Disk.locate_congr (homed.trail_same step)) (homed.inside _ step.below.1)
  unfold openProject
  refine .now ?_
  generalize (DiskAction.read (directory.join name)).run.run w.disk = left,
    (DiskAction.read (directory.join name)).run.run w'.disk = right at same
  obtain ⟨result, d⟩ := left
  obtain ⟨result', d'⟩ := right
  obtain rfl : result' = result := same
  cases result' with
  | error e => exact .value homed
  | ok content =>
    dsimp only
    cases openingOf content with
    | ok opening => exact .value homed
    | error f => exact .failure rfl homed

theorem enroll_along (step : Path.Downward name) (named : (directory.join name).stem = base) :
    Along (Homed memory directory base) runner w w' (enroll (directory.join name)) := by
  unfold enroll
  refine (openProject_along homed step).bind fun opening w w' homed => ?_
  cases opening with
  | unreadable reason => exact .noted (.value homed.hear)
  | otherMarkup => exact .noted (.value homed.hear)
  | project =>
    refine .now ?_
    have keeping {v : World σ} (lone : Lone directory v) : (keep (registered v (directory.join name))).run runner v
        = (.ok (), { v with registry := registered v (directory.join name) }) := keep_unstored lone.unstored
    have entry {v : World σ} : (registered v (directory.join name)).timeless (Text.ofString base)
        = some (Text.ofString base, Text.ofString (directory.join name).toString) := by
      unfold registered
      rw [timeless_put, named, if_pos rfl]
    have kept : Parallel (Homed memory directory base)
        ((keep (registered w (directory.join name))).run runner w)
        ((keep (registered w' (directory.join name))).run runner w') := by
      rw [keeping homed.left, keeping homed.right]
      exact .well ⟨homed.enrolled homed.left.unstored homed.right.unstored (entry.trans entry.symm), homed.located,
        homed.present⟩
    exact kept.bind fun _ _ _ homed => .noted (.noted (.value homed.hear.hear))

theorem register_along (step : Path.Downward name) (named : (directory.join name).stem = base) :
    Along (Homed memory directory base) runner w w' (register (directory.join name) xml) := by
  rw [register_eq]
  refine (homed.seen step).bind fun there _ _ homed => ?_
  cases there with
  | true => exact enroll_along homed step named
  | false => exact (homed.wrote step).bind fun _ _ _ homed => enroll_along homed step named

end Homed

end Registry

/-! ### The expansion of a file -/

namespace Expansion

variable {e : Expansion} {source output file : Path} {asked : Option Path} {u : Source.Unit} {comment : Source.Node}
  {xml : String}

theorem projectXml_along (twin : Twin memory directory base w w') :
    Along (Twin memory directory base) runner w w' (e.projectXml comment) := by
  unfold projectXml
  split
  · exact .failure rfl twin
  · split
    · exact .noted (.value twin.hear)
    · exact .value twin

theorem evict_along (twin : Twin memory directory base w w') :
    Along (Twin memory directory base) runner w w' (evict base) := by
  have both : (w'.registry.find? (Text.ofString base)).isSome = (w.registry.find? (Text.ofString base)).isSome := by
    rw [← Registry.timeless_isSome, ← Registry.timeless_isSome, twin.entry]
  have found {v : World σ} :
      (Registry.find base : Action σ _).run runner v = (.ok (v.registry.find? (Text.ofString base)), v) := rfl
  unfold evict Along
  rw [bind_ok found, bind_ok found, both]
  cases (w.registry.find? (Text.ofString base)).isSome with
  | false => exact .value twin
  | true => exact (Registry.release_along twin).bind fun _ _ _ twin => .value twin

-- All files of the project are one step below its directory, and its file is entered under the name of the source.
structure Flat (e : Expansion) (source directory : Path) : Prop where
  project : Path.Downward (e.projectName source)
  usings : Path.Downward (e.configuration.project.globalUsings ++ source.suffix)
  copy : Path.Downward source.name
  entered : (directory.join (e.projectName source)).stem = source.stem

section Homed

variable (loc : Local runner memory) (flat : e.Flat source directory)

include loc flat

theorem deliver_along (homed : Homed memory directory source.stem w w') :
    Along (Homed memory directory source.stem) runner w w'
      (e.deliver source directory ⟨directory⟩ (directory.join (e.projectName source)) u) := by
  unfold deliver
  refine Alike.bind (Scaffold.writeSource_along loc homed flat.copy) fun _ _ _ homed => .noted ?_
  refine (Registry.register_along homed.hear flat.project flat.entered).bind fun refused _ _ homed => ?_
  cases refused with
  | true => exact .value homed
  | false =>
    exact (Scaffold.writeReadme_along loc homed).bind fun _ _ _ homed =>
      (Repository.commitStaged_along loc homed).bind fun _ _ _ homed => .value homed

theorem build_along (twin : Twin memory directory source.stem w w') :
    Along (Twin memory directory source.stem) runner w w' (e.build source directory xml u) := by
  unfold build
  refine Alike.bind (Scaffold.prepare_alike loc twin) fun r _ _ ⟨same, homed⟩ => ?_
  subst same
  refine Alike.mono ?_ (fun _ _ _ => Homed.toTwin) fun _ _ => Homed.toTwin
  refine Alike.bind (Scaffold.writeProjectFile_alike loc homed flat.project) fun written _ _ ⟨wrote, homed⟩ => ?_
  rw [wrote]
  exact (Scaffold.splitUsings_along loc homed flat.usings).bind fun _ _ _ homed => deliver_along loc flat homed

theorem expandComment_along (directory_is : directory = output.join source.stem)
    (twin : Twin memory directory source.stem w w') :
    Along (Twin memory directory source.stem) runner w w' (e.expandComment source output u comment) := by
  unfold expandComment
  dsimp only
  rw [← directory_is]
  refine (projectXml_along twin).bind fun xml _ _ twin => ?_
  split
  · exact .noted (.value twin.hear)
  · exact .noted ((evict_along twin.hear).bind fun _ _ _ twin => build_along loc flat twin)

theorem processComment_along (directory_is : directory = output.join source.stem)
    (twin : Twin memory directory source.stem w w') :
    Along (Twin memory directory source.stem) runner w w' (e.processComment source output u comment) := by
  unfold processComment
  refine (expandComment_along loc flat directory_is twin).tryCatch fun f f' _ _ same twin => ?_
  rw [same]
  split
  · exact .noted (.value twin.hear)
  · exact .failure same twin

-- The induction is on the comments, in whatever worlds the earlier ones have left.
theorem firstHandled_along (directory_is : directory = output.join source.stem) {comments : List Source.Node}
    (twin : Twin memory directory source.stem w w') :
    Along (Twin memory directory source.stem) runner w w'
      (Descriptor.firstHandled (e.processComment source output u) comments) := by
  induction comments generalizing w w' with
  | nil => exact .value twin
  | cons comment rest ih =>
    unfold Descriptor.firstHandled
    refine (processComment_along loc flat directory_is twin).bind fun outcome _ _ twin => ?_
    split
    · exact .value twin
    · exact ih twin

end Homed

theorem resolve_alike {here p : Path} (twin : Twin memory directory base w w') :
    Alike (fun q v v' => q = p.resolve here ∧ Twin memory directory base v v') (Twin memory directory base)
      ((Action.onDisk (DiskAction.resolve here p)).run runner w)
      ((Action.onDisk (DiskAction.resolve here p)).run runner w') := by
  unfold DiskAction.resolve
  split
  · exact .failed rfl twin
  · exact .well ⟨rfl, twin⟩

theorem outputFor_alike (source_is : source = file.resolve e.here) (twin : Twin memory directory base w w') :
    Alike (fun output v v' => output = e.outputOf file asked ∧ Twin memory directory base v v')
      (Twin memory directory base) ((e.outputFor source asked).run runner w) ((e.outputFor source asked).run runner w') := by
  subst source_is
  unfold outputFor
  cases asked with
  | some p => exact resolve_alike twin
  | none => exact .value ⟨rfl, twin⟩

-- One run over a file in two worlds in which the file reads the same.
theorem processFileBy_along {parse : String → Source.Unit} (loc : Local runner memory) (flat : e.Flat source directory)
    (source_is : source = file.resolve e.here) (directory_is : directory = (e.outputOf file asked).join source.stem)
    (reads : textAt (opened source w').disk source = textAt (opened source w).disk source)
    (twin : Twin memory directory source.stem w w') :
    Along (Twin memory directory source.stem) runner w w' (e.processFileBy parse file asked) := by
  have resolving : ∀ v, (Action.onDisk (DiskAction.resolve e.here file)).run runner v
      = if file.hasNull then (.error (.file ⟨.nullCharacter, file.toString⟩), v) else (.ok source, v) := by
    intro v
    unfold DiskAction.resolve
    rw [source_is]
    split <;> rfl
  unfold processFileBy Along
  by_cases null : file.hasNull = true
  · rw [bind_error ((resolving w).trans (if_pos null)), bind_error ((resolving w').trans (if_pos null))]
    exact .failed rfl twin
  · rw [bind_ok ((resolving w).trans (if_neg null)), bind_ok ((resolving w').trans (if_neg null))]
    refine .noted (.now ?_)
    change textAt (hear _ w').disk source = textAt (hear _ w).disk source at reads
    rw [reads]
    cases textAt (hear ⟨.info, part, "Processing " ++ source.toString⟩ w).disk source with
    | error reason => exact .noted (.value twin.hear.hear)
    | ok text =>
      dsimp only
      split
      · exact .noted (.value twin.hear.hear)
      · unfold processUnit
        refine Alike.bind (outputFor_alike source_is twin.hear) fun output _ _ ⟨same, twin⟩ => ?_
        subst same
        refine Alike.bind (firstHandled_along loc flat directory_is twin) fun outcome _ _ twin => ?_
        split
        · exact .noted (.value twin.hear)
        · exact .noted (.value twin.hear)

end Expansion
end InlineProject
