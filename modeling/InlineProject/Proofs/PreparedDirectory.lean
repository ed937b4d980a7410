import InlineProject.Proofs.RepositoryRun
import InlineProject.Scaffold
/-!
The directory of a project before anything is written. Whatever was there, afterwards the index is that of
the last commit; and where a repository was, the files are those of the last commit.
-/

namespace InlineProject.Git

open InlineProject.Action

variable {σ : Type} {runner : Runner σ} {k : Keeping σ} {directory : Path} {home : Place}
  {w w' : World σ} {a : Archive}

/-! ### A repository that is there -/

-- No directory is there but those that hold files.
def Swept (home : Place) (d : Disk) (t : Tree) : Prop :=
  ∀ way, way ≠ [] → way.head? ≠ some metadataName → d.item? (home ++ way) = some .directory →
    ∃ more, (t (way ++ more)).isSome = true

-- The repository is that of the last commit again, without and within.
structure Restored (k : Keeping σ) (directory : Path) (home : Place) (a : Archive)
    (w w' : World σ) : Prop where
  stands : Stands k directory home w'.git w'.disk ⟨a.commits, a.tree⟩
  outlets : SameOutlets w w'
  directories : Disk.SameDirectories (fun q => ¬Below home q) w.disk w'.disk
  files : workingTree w'.disk home = a.tree
  swept : a.index = a.tree ∨ Swept home w'.disk a.tree

theorem isDirty_parts (lawful : Lawful runner k) (direct : Direct home directory)
    (sound : w.disk.Sound) (located : w.disk.locate directory = .ok home)
    (kept : (w.disk.item? (metadataPlace home)).isSome = true) {dirty : Bool}
    (ran : (Repository.isDirty ⟨directory⟩).run runner w = (.ok dirty, w')) :
    ∃ a, Stands k directory home w.git w.disk a ∧ Stands k directory home w'.git w'.disk a ∧
      Quiet home w.disk w'.disk ∧ SameOutlets w w' ∧
      (dirty = false ↔ a.tree = a.index ∧ a.index = workingTree w.disk home) := by
  unfold Repository.isDirty at ran
  obtain ⟨text, middle, asked, ran⟩ := bind_parts ran
  obtain ⟨g', d', reply, rfl⟩ := callGit_parts asked
  obtain ⟨a, archived, archived', quiet, blank⟩ := lawful.status sound located kept reply
  have stands : Stands k directory home w.git w.disk a := ⟨sound, located, archived⟩
  have sound' := lawful.sound sound located reply
  obtain ⟨told, rfl⟩ := pure_parts ran
  refine ⟨a, stands, stands.quiet direct sound' archived' quiet, quiet, ⟨rfl, rfl⟩, ?_⟩
  rw [← blank, ← told, Bool.not_eq_false']

theorem isDirty_answers (lawful : Lawful runner k) (direct : Direct home directory)
    (stands : Stands k directory home w.git w.disk a) :
    ∃ dirty w', (Repository.isDirty ⟨directory⟩).run runner w = (.ok dirty, w') ∧
      Stands k directory home w'.git w'.disk a ∧ Quiet home w.disk w'.disk ∧ SameOutlets w w' ∧
      (dirty = false ↔ a.tree = a.index ∧ a.index = workingTree w.disk home) := by
  obtain ⟨text, w', asked⟩ := answers_runs (lawful.status_answers stands)
  have looked : (Repository.isDirty ⟨directory⟩).run runner w
      = (.ok (!Blank.isBlankText text.toList), w') := bind_ok asked
  obtain ⟨b, stands₀, stands', quiet, outlets, clean⟩ :=
    isDirty_parts lawful direct stands.sound stands.located (lawful.kept stands.archived) looked
  obtain rfl : a = b := Option.some.inj (stands.archived.symm.trans stands₀.archived)
  exact ⟨_, w', looked, stands', quiet, outlets, clean⟩

theorem Stands.aside {g : σ} {d : Disk} (stands : Stands k directory home g d a)
    (direct : Direct home directory) : ∀ q ∈ directory.trail, ¬Below home q := by
  refine direct.aside ?_
  rw [stands.place]
  exact not_below_home

theorem reset_stands (lawful : Lawful runner k) (direct : Direct home directory) {g g' : σ}
    {d d' : Disk} {text : String} (stands : Stands k directory home g d a)
    (reply : runner (.reset directory) g d = (.output text, g', d')) :
    Stands k directory home g' d' ⟨a.commits, a.tree⟩ := by
  obtain ⟨archived, around, _⟩ := lawful.reset stands reply
  exact ⟨lawful.sound stands.sound stands.located reply,
    Disk.locate_transfer around (stands.aside direct) stands.located, archived⟩

theorem restore_parts (lawful : Lawful runner k) (direct : Direct home directory)
    (stands : Stands k directory home w.git w.disk a)
    (ran : (Repository.restore ⟨directory⟩).run runner w = (.ok (), w')) :
    Stands k directory home w'.git w'.disk ⟨a.commits, a.tree⟩ ∧ SameOutlets w w' ∧
      Disk.SameDirectories (fun q => ¬Below home q) w.disk w'.disk ∧
      workingTree w'.disk home = a.tree ∧ Swept home w'.disk a.tree := by
  unfold Repository.restore at ran
  obtain ⟨_, middle, first, second⟩ := bind_parts ran
  obtain ⟨_, g₁, d₁, reset, rfl⟩ := command_parts first
  obtain ⟨_, g₂, d₂, clean, rfl⟩ := command_parts second
  have stands₁ := reset_stands lawful direct stands reset
  obtain ⟨_, around₁, back⟩ := lawful.reset stands reset
  obtain ⟨archived, around₂, cleaned, swept⟩ := lawful.clean stands₁ clean
  -- what is not in the commit is gone, and what is in it is back
  have files : workingTree d₂ home = a.tree := by
    funext way
    rw [cleaned way]
    change (if (a.tree way).isSome then _ else _) = _
    cases held : a.tree way with
    | none => rfl
    | some content => exact back way content held
  exact ⟨⟨lawful.sound stands₁.sound stands₁.located clean,
    Disk.locate_transfer around₂ (stands₁.aside direct) stands₁.located, archived⟩, ⟨rfl, rfl⟩,
    around₁.trans around₂, files, swept⟩

theorem restore_answers (lawful : Lawful runner k) (direct : Direct home directory)
    (stands : Stands k directory home w.git w.disk a) (born : a.commits ≠ []) :
    ∃ w', (Repository.restore ⟨directory⟩).run runner w = (.ok (), w') := by
  have answers : Answers runner ⟨program :: ["reset", "--hard", "--quiet", "HEAD"], directory, none,
      false⟩ w.git w.disk := lawful.reset_answers stands born
  obtain ⟨middle, first⟩ := command_answers answers
  obtain ⟨_, g₁, d₁, reset, rfl⟩ := command_parts first
  have answers : Answers runner ⟨program :: ["clean", "-fd", "--quiet"], directory, none, false⟩ g₁
      d₁ := lawful.clean_answers (reset_stands lawful direct stands reset)
  obtain ⟨ended, second⟩ := command_answers (w := { w with
    git := g₁
    disk := d₁
    calls := ⟨program :: ["reset", "--hard", "--quiet", "HEAD"], directory, none, false⟩ :: w.calls })
    answers
  refine ⟨ended, ?_⟩
  unfold Repository.restore
  rw [bind_ok first]
  exact second

/-! ### A repository that is made -/

-- A repository that begins has no commit, and nothing is taken in.
theorem init_holds (lawful : Lawful runner k) (direct : Direct home directory) (apart : Apart home w)
    (sound : w.disk.Sound) (located : w.disk.locate directory = .ok home)
    (fresh : w.disk.item? (metadataPlace home) = none)
    (ran : (Repository.command ⟨directory⟩ ["-c", "init.defaultBranch=main", "init", "--quiet"]).run runner w
      = (.ok (), w')) : Holds k directory home w' ⟨[], .empty⟩ := by
  obtain ⟨_, g', d', reply, rfl⟩ := command_parts ran
  obtain ⟨archived, quiet⟩ := lawful.init sound located fresh reply
  have aside : ∀ q ∈ directory.trail, Unkept home q := by
    refine fun q on => unkept_of_aside (direct.aside ?_ q on)
    rw [← Disk.locate_place located]
    exact not_below_home
  have stands : Stands k directory home g' d' ⟨[], .empty⟩ :=
    ⟨lawful.sound sound located reply,
      Disk.locate_transfer quiet.directories aside located, archived⟩
  refine ⟨stands, direct, ⟨apart.journal, apart.store⟩, fun way content indexed => ?_⟩
  cases indexed

theorem create_holds (lawful : Lawful runner k) (direct : Direct home directory)
    (apart : Apart home w) (sound : w.disk.Sound) (located : w.disk.locate directory = .ok home)
    (fresh : w.disk.item? (metadataPlace home) = none) {identity : Identity} {message : String}
    {r : Repository}
    (ran : (Repository.create directory identity message).run runner w = (.ok r, w')) :
    r = ⟨directory⟩ ∧ ∃ a, Holds k directory home w' a ∧ a.index = a.tree := by
  unfold Repository.create at ran
  obtain ⟨_, middle, first, ran⟩ := bind_parts ran
  have holds := init_holds lawful direct apart sound located fresh first
  obtain ⟨c, made, committed, ran⟩ := bind_parts ran
  obtain ⟨same, rfl⟩ := pure_parts ran
  obtain ⟨a, held, _, _, index, tree⟩ := commit_holds lawful holds committed
  exact ⟨same.symm, a, held, index.trans tree.symm⟩

end InlineProject.Git

namespace InlineProject.Scaffold

open InlineProject.Action InlineProject.Git
open InlineProject.DiskAction (Grown makeDirectories_made run_pathExists)

variable {σ : Type} {runner : Runner σ} {k : Keeping σ} {directory : Path} {home : Place}
  {w w' : World σ} {a : Archive} {s : Scaffold} {r : Repository}

/-! ### Which of them it is -/

theorem existsAt_run : (onDisk (Git.existsAt directory)).run runner w
    = match w.disk.look (directory.join metadataName) with
      | .ok item => (.ok item.isSome, w)
      | .error e => (.error (.file e), w) := by
  rw [run_onDisk]
  unfold Git.existsAt
  rw [run_pathExists]
  cases w.disk.look (directory.join metadataName) <;> rfl

theorem pathExists_run {p : Path} : (onDisk (DiskAction.pathExists p)).run runner w
    = match w.disk.look p with
      | .ok item => (.ok item.isSome, w)
      | .error e => (.error (.file e), w) := by
  rw [run_onDisk, run_pathExists]
  cases w.disk.look p <;> rfl

-- What is seen of a directory, and where the program keeps what is its own.
theorem looks_there {d : Disk} (located : d.locate directory = .ok home) (there : d.item? home = some .directory) :
    d.look directory = .ok (some .directory) ∧
      d.look (directory.join metadataName) = .ok (d.item? (metadataPlace home)) := by
  have child : d.locate ⟨directory.anchor, directory.parts ++ [metadataName]⟩
      = .ok (metadataPlace home) :=
    Disk.locate_child located there (by decide) (by decide) (by decide)
  have joined : directory.join metadataName
      = ⟨directory.anchor, directory.parts ++ [metadataName]⟩ := rfl
  constructor
  · rw [Disk.look_located located, there]
  · rw [joined, Disk.look_located child]

theorem look_metadata {d : Disk} (sound : d.Sound) (located : d.locate directory = .ok home)
    {item : Option Item} (seen : d.look (directory.join metadataName) = .ok item) :
    item = d.item? (metadataPlace home) := by
  by_cases there : d.item? home = some .directory
  · exact (Except.ok.inj (seen.symm.trans (looks_there located there).2))
  -- where there is no directory there is nothing to be seen, and nothing
  · have nothing : d.item? (metadataPlace home) = none := Disk.absent_below sound there (List.cons_ne_nil _ _)
    rw [nothing]
    cases item with
    | none => rfl
    | some item =>
      obtain ⟨_, above⟩ := Disk.locate_above (p := directory) (Disk.look_some seen).1
      rw [← Disk.locate_place located] at above
      exact absurd above there

/-! ### What is done with it -/

-- A repository that is there is taken as it is, but for its changes.
def reuse (directory : Path) : Action σ Repository := do
  let r : Repository := ⟨directory⟩
  if ← r.isDirty then
    Action.note .info part ("Resetting dirty working tree in " ++ directory.toString)
    r.restore
  return r

-- All that a preparation does, by what is seen of the directory and of the place where the program keeps its own.
theorem prepare_run : (s.prepare directory).run runner w
    = match w.disk.look directory, w.disk.look (directory.join metadataName) with
      | .error e, _ => (.error (.file e), w)
      | .ok none, _ => (do
          Action.onDisk (DiskAction.makeDirectories false directory)
          Action.note .info part ("Created project directory " ++ directory.toString)
          s.create directory : Action σ Repository).run runner w
      | .ok (some _), .error e => (.error (.file e), w)
      | .ok (some _), .ok none => (do
          Action.note .info part ("Initializing repository in existing directory " ++ directory.toString)
          s.create directory : Action σ Repository).run runner w
      | .ok (some _), .ok (some _) => (reuse directory).run runner w := by
  unfold prepare
  cases seen : w.disk.look directory with
  | error e => exact bind_error (pathExists_run.trans (by rw [seen]))
  | ok item =>
    rw [bind_ok (pathExists_run.trans (by rw [seen]))]
    cases item with
    | none => rfl
    | some item =>
      simp only [Option.isSome_some, Bool.not_true, Bool.false_eq_true, if_false]
      cases inner : w.disk.look (directory.join metadataName) with
      | error e => exact bind_error (existsAt_run.trans (by rw [inner]))
      | ok own =>
        rw [bind_ok (existsAt_run.trans (by rw [inner]))]
        cases own <;> rfl

theorem prepare_found (sound : w.disk.Sound) (located : w.disk.locate directory = .ok home)
    (kept : (w.disk.item? (metadataPlace home)).isSome = true) :
    (s.prepare directory).run runner w = (reuse directory).run runner w := by
  obtain ⟨own, there⟩ := Option.isSome_iff_exists.mp kept
  obtain ⟨present, seen⟩ := looks_there located (Disk.directory_above sound kept (List.cons_ne_nil metadataName []))
  rw [prepare_run, present, seen, there]

-- Where a repository was, it is restored.
theorem prepare_kept (lawful : Lawful runner k) (direct : Direct home directory)
    (apart : Apart home w) (sound : w.disk.Sound) (located : w.disk.locate directory = .ok home)
    (kept : (w.disk.item? (metadataPlace home)).isSome = true)
    (ran : (s.prepare directory).run runner w = (.ok r, w')) :
    r = ⟨directory⟩ ∧ ∃ a, Stands k directory home w.git w.disk a ∧
      Restored k directory home a w w' := by
  rw [prepare_found sound located kept] at ran
  obtain ⟨dirty, middle, asked, ran⟩ := bind_parts ran
  obtain ⟨a, stands, stands', quiet, outlets, clean⟩ :=
    isDirty_parts lawful direct sound located kept asked
  have around : Disk.SameDirectories (fun q => ¬Below home q) w.disk middle.disk :=
    quiet.directories.mono fun q aside => unkept_of_aside aside
  cases dirty with
  | false =>
    simp only [Bool.false_eq_true, if_false] at ran
    obtain ⟨same, rfl⟩ := pure_parts ran
    obtain ⟨tree, files⟩ := clean.mp rfl
    refine ⟨same.symm, a, stands, ⟨?_, outlets, around, ?_, .inl tree.symm⟩⟩
    · rw [tree]
      exact stands'
    · rw [quiet.workingTree, tree, files]
  | true =>
    simp only [if_true] at ran
    have ran := note_parts ran
    obtain ⟨_, ended, restored, ran⟩ := bind_parts ran
    obtain ⟨same, rfl⟩ := pure_parts ran
    have beside := hear_beside
      (n := ⟨.info, part, "Resetting dirty working tree in " ++ directory.toString⟩)
      (apart.outlets outlets)
    obtain ⟨stood, outlets', around', files, swept⟩ :=
      restore_parts lawful direct (stands'.beside lawful beside) restored
    refine ⟨same.symm, a, stands, ⟨stood, (outlets.trans beside.outlets).trans outlets', ?_, files,
      .inr swept⟩⟩
    exact (around.trans (beside.directories.mono fun _ _ => trivial)).trans around'

theorem prepare_answers (lawful : Lawful runner k) (direct : Direct home directory)
    (apart : Apart home w) (stands : Stands k directory home w.git w.disk a)
    (born : a.commits ≠ []) :
    ∃ w', (s.prepare directory).run runner w = (.ok ⟨directory⟩, w') ∧
      Restored k directory home a w w' := by
  have kept := lawful.kept stands.archived
  obtain ⟨dirty, middle, looked, stands', _, outlets, _⟩ := isDirty_answers lawful direct stands
  have ended : ∃ w', (s.prepare directory).run runner w = (.ok ⟨directory⟩, w') := by
    rw [prepare_found stands.sound stands.located kept, reuse, bind_ok looked]
    cases dirty with
    | false => exact ⟨middle, rfl⟩
    | true =>
      have beside := hear_beside
        (n := ⟨.info, part, "Resetting dirty working tree in " ++ directory.toString⟩)
        (apart.outlets outlets)
      obtain ⟨w', restored⟩ := restore_answers lawful direct (stands'.beside lawful beside) born
      refine ⟨w', ?_⟩
      simp only [if_true]
      rw [bind_ok (run_note _ _ _), bind_ok restored, Action.run_pure]
  obtain ⟨w', ran⟩ := ended
  obtain ⟨_, b, stands₁, restored⟩ :=
    prepare_kept lawful direct apart stands.sound stands.located kept ran
  obtain rfl : a = b := Option.some.inj (stands.archived.symm.trans stands₁.archived)
  exact ⟨w', ran, restored⟩

theorem holds_of_restored {b : Archive} (direct : Direct home directory) (apart : Apart home w)
    (restored : Restored k directory home b w w') :
    Holds k directory home w' ⟨b.commits, b.tree⟩ := by
  refine ⟨restored.stands, direct, apart.outlets restored.outlets, fun way content indexed => ?_⟩
  rw [restored.files]
  exact indexed

-- A directory that is no repository yet becomes one, after a note.
theorem adopted_holds (lawful : Lawful runner k) (direct : Direct home directory) (apart : Apart home w)
    (sound : w.disk.Sound) (located : w.disk.locate directory = .ok home)
    (fresh : w.disk.item? (metadataPlace home) = none) {message : String}
    (ran : (s.create directory).run runner (hear ⟨.info, part, message⟩ w) = (.ok r, w')) :
    r = ⟨directory⟩ ∧ ∃ a, Holds k directory home w' a ∧ a.index = a.tree := by
  have beside := hear_beside (n := ⟨.info, part, message⟩) apart
  refine create_holds lawful direct (apart.outlets beside.outlets) (beside.sound sound)
    (Disk.locate_transfer beside.directories (fun _ _ => trivial) located) ?_ ran
  rw [beside.inside _ metadata_inside]
  exact fresh

theorem made_holds (lawful : Lawful runner k) (direct : Direct directory.place directory)
    (apart : Apart directory.place w) (sound : w.disk.Sound) {message : String}
    (ran : (do
      Action.onDisk (DiskAction.makeDirectories false directory)
      Action.note .info part message
      s.create directory : Action σ Repository).run runner w = (.ok r, w')) :
    r = ⟨directory⟩ ∧ ∃ a, Holds k directory directory.place w' a ∧ a.index = a.tree := by
  obtain ⟨_, _, made, ran⟩ := bind_parts ran
  obtain ⟨disk, done, rfl⟩ := onDisk_parts made
  obtain ⟨middle, grown, made⟩ := makeDirectories_made done
  have ran := note_parts ran
  have started : Grown (fun _ => True) middle disk := made.grown trivial
  obtain ⟨located, _⟩ := made.located
  have apart' : Apart directory.place { w with disk := disk } := ⟨apart.journal, apart.store⟩
  refine adopted_holds lawful direct apart' (started.sound (grown.sound sound)) located ?_ ran
  -- what is the program's own would be below the directory, which is new
  obtain ⟨_, absent, _, put⟩ := made
  have other : metadataPlace directory.place ≠ directory.place := (below_append (List.cons_ne_nil _ _)).2
  dsimp only
  rw [put, Disk.item?_put _ _ _ _ (Disk.inside_of_absent absent), if_neg other]
  exact Disk.absent_below (grown.sound sound) (by rw [absent]; nofun) (List.cons_ne_nil _ _)

-- Whatever was there, the index is that of the last commit.
theorem prepare_holds (lawful : Lawful runner k) (direct : Direct home directory)
    (named : directory.place = home) (apart : Apart home w) (sound : w.disk.Sound)
    (ran : (s.prepare directory).run runner w = (.ok r, w')) :
    r = ⟨directory⟩ ∧ ∃ a, Holds k directory home w' a ∧ a.index = a.tree := by
  subst named
  have prepared := prepare_run.symm.trans ran
  cases seen : w.disk.look directory with
  | error e =>
    rw [seen] at prepared
    cases prepared
  | ok item =>
    rw [seen] at prepared
    cases item with
    | none => exact made_holds lawful direct apart sound prepared
    | some item =>
      obtain ⟨located, _⟩ := Disk.look_some seen
      cases inner : w.disk.look (directory.join metadataName) with
      | error e =>
        rw [inner] at prepared
        cases prepared
      | ok own =>
        rw [inner] at prepared
        have own_eq := look_metadata sound located inner
        cases own with
        | none => exact adopted_holds lawful direct apart sound located own_eq.symm (note_parts prepared)
        | some found =>
          have kept : (w.disk.item? (metadataPlace directory.place)).isSome = true := by
            rw [← own_eq]
            rfl
          obtain ⟨same, b, _, restored⟩ := prepare_kept lawful direct apart sound located kept ran
          exact ⟨same, _, holds_of_restored direct apart restored, rfl⟩

end InlineProject.Scaffold
