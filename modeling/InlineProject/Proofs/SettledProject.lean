import InlineProject.Proofs.ProjectRun
/-!
A file that is expanded a second time. When the project of the first run was that of the first comment, the
second run ends in the same commit, whatever has happened to the files in between.
-/

namespace InlineProject.Expansion

open InlineProject.Action InlineProject.Git

variable {σ : Type} {runner : Runner σ} {k : Keeping σ} {e : Expansion}
  {source directory file : Path} {home : Place} {w w' : World σ} {d d' : Disk} {a : Archive}
  {c : Commit} {u : Source.Unit} {xml : String}

/-! ### Where files can be written again -/

-- What remains of a file that could be written: its way outside of the directory.
structure Reached (home : Place) (d : Disk) (file : Path) : Prop where
  ends : file.place = home ++ wayTo home file
  free : (wayTo home file).head? ≠ some metadataName
  clean : file.hasNull = false
  short : ∀ n ∈ file.parts, n = Path.parentName ∨ n.utf8ByteSize ≤ Disk.nameLimit
  turned : file.place ∉ file.trail
  outside : ∀ q ∈ file.trail, ¬Below home q → d.item? q = some .directory

theorem reached_of_placed (placed : Placed home d file) : Reached home d file := by
  obtain ⟨ends, free, writable⟩ := placed
  obtain ⟨clean, _, left, short⟩ := Disk.locate_exact.mp writable.located
  refine ⟨ends, free, clean, short, fun on => ?_, fun q on _ => left q on⟩
  refine writable.noDirectory ?_
  rw [← ends]
  exact left _ on

theorem Reached.stay (reached : Reached home d file)
    (stay : ∀ q, ¬Below home q → d.item? q = some .directory → d'.item? q = some .directory) :
    Reached home d' file :=
  ⟨reached.ends, reached.free, reached.clean, reached.short, reached.turned,
    fun q on apart => stay q apart (reached.outside q on apart)⟩

theorem placed_of_reached (reached : Reached home d file) (direct : Direct home file)
    (there : d.item? home = some .directory) (free : d.item? file.place ≠ some .directory)
    (inner : ∀ q, Below home q → q <+: file.place → q ≠ file.place →
      d.item? q = some .directory) : Placed home d file := by
  have located : d.locate file = .ok (home ++ wayTo home file) := by
    refine Disk.locate_exact.mpr
      ⟨reached.clean, reached.ends.symm, fun q on => ?_, reached.short⟩
    by_cases below : Below home q
    · refine inner q below (direct q on below) ?_
      rintro rfl
      exact reached.turned on
    · exact reached.outside q on below
  rw [reached.ends] at free inner
  have away : wayTo home file ≠ [] := by
    intro none
    rw [none, List.append_nil] at free
    exact free there
  refine ⟨reached.ends, reached.free, located, free, ?_⟩
  rw [List.dropLast_append_of_ne_nil away]
  by_cases first : (wayTo home file).dropLast = []
  · rw [first, List.append_nil]
    exact there
  · refine inner _ (below_append first) ?_ ?_
    · exact (List.prefix_append_right_inj home).mpr (List.dropLast_prefix _)
    · intro same
      have short := congrArg List.length (List.append_cancel_left same)
      have long := List.length_pos_iff.mpr away
      rw [List.length_dropLast] at short
      omega

/-! ### The files of a project -/

-- What is written before the project is registered.
def earlyFiles (e : Expansion) (source : Path) (u : Source.Unit) (xml : String) :
    List (String × String) :=
  [(source.stem ++ e.configuration.project.extension, xml)]
    ++ Scaffold.usingFiles (e.configuration.project.globalUsings ++ source.suffix) u
    ++ [(source.name, (u.without u.usings).fullText)]

def projectFiles (e : Expansion) (source : Path) (u : Source.Unit) (xml : String) :
    List (String × String) :=
  e.earlyFiles source u xml ++ [(Scaffold.readmeName, e.configuration.project.readme)]

-- How a run leaves a project: the last commit is the one it tells of, nothing is left to commit, and to
-- write the same files once more would change nothing.
structure Settled (k : Keeping σ) (e : Expansion) (source directory : Path) (home : Place)
    (u : Source.Unit) (xml : String) (w : World σ) (a : Archive) (c : Commit) : Prop where
  holds : Holds k directory home w a
  last : a.last = some c
  idle : k.Silent a.tree a.index
  staged : (Archive.mk a.commits a.tree).stageAll home directory (e.projectFiles source u xml) = a
  reached : ∀ f ∈ e.projectFiles source u xml, Reached home w.disk (directory.join f.1)
  storable : Registry.Storable w
  opens : ∃ content,
    ((Archive.mk a.commits a.tree).stageAll home directory (e.earlyFiles source u xml)).index
        (wayTo home (directory.join (source.stem ++ e.configuration.project.extension)))
      = some content ∧ Registry.openingOf content = .ok .project

theorem stageAll_tree {files : List (String × String)} :
    (a.stageAll home directory files).tree = a.tree := by
  unfold Archive.tree
  rw [stageAll_commits]

theorem present_of_index (holds : Holds k directory home w a) {way : Place} {content : ByteArray}
    (indexed : a.index way = some content) : w.disk.item? (home ++ way) = some (.file content) :=
  (workingTree_exact.mp (holds.matching _ _ indexed)).2

theorem home_there (lawful : Lawful runner k) (stands : Stands k directory home w.git w.disk a) :
    w.disk.item? home = some .directory :=
  Disk.directory_above stands.sound (lawful.kept stands.archived) (List.cons_ne_nil metadataName [])

theorem storable_of_around (apart : Apart home w) (storable : Registry.Storable w)
    (path : w'.registry.path = w.registry.path)
    (around : Disk.SameDirectories (fun q => ¬Below home q) w.disk w'.disk) :
    Registry.Storable w' := by
  intro p on
  rw [path] at on
  obtain ⟨direct, outside⟩ := apart.store p on
  exact (storable p on).transfer around (guarded_aside direct fun below => outside below.1)

theorem around_of_still (still : Still home w w') :
    Disk.SameDirectories (fun q => ¬Below home q) w.disk w'.disk :=
  still.directories.mono fun _ apart => unkept_of_aside apart

/-! ### The first run -/

-- The archive that is committed is the one that was made of the last commit.
theorem staged_again {b : Archive} {files : List (String × String)} (base : b.index = b.tree)
    (index : a.index = (b.stageAll home directory files).index)
    (tree : a.tree = b.tree ∨ a.tree = a.index) :
    (Archive.mk a.commits a.tree).stageAll home directory files = a := by
  have commits : ((Archive.mk a.commits a.tree).stageAll home directory files).commits = a.commits :=
    stageAll_commits
  have made : ((Archive.mk a.commits a.tree).stageAll home directory files).index = a.index := by
    rcases tree with old | new
    · rw [index]
      funext way
      refine stageAll_index (.inl ?_)
      rw [base, ← old]
    · rw [stageAll_again (a := b) (new.trans index), index]
  calc (Archive.mk a.commits a.tree).stageAll home directory files
      = ⟨((Archive.mk a.commits a.tree).stageAll home directory files).commits,
          ((Archive.mk a.commits a.tree).stageAll home directory files).index⟩ := rfl
    _ = a := by rw [commits, made]

-- The name that the file of a project has.
def projectName (e : Expansion) (source : Path) : String :=
  source.stem ++ e.configuration.project.extension

theorem project_early : (e.projectName source, xml) ∈ e.earlyFiles source u xml :=
  List.mem_append_left _ List.mem_cons_self

-- From the registration on.
theorem registered_settles (lawful : Lawful runner k) (absolute : directory.isAbsolute = true)
    {b : Archive} {ready added completed : World σ} {readme : Path} (base : b.index = b.tree)
    (straight : ∀ f ∈ e.projectFiles source u xml, Direct home (directory.join f.1))
    (filled : Scaffold.Written k directory home (e.earlyFiles source u xml) ready w b)
    (registered : (Registry.register (directory.join (e.projectName source))
      e.configuration.project.defaultXml).run runner w = (.ok false, added))
    (wrote : (Scaffold.writeReadme ⟨directory⟩ directory e.configuration.project.readme).run runner
      added = (.ok readme, completed))
    (committed : (Repository.commitStaged ⟨directory⟩ e.configuration.commits.identity
      e.configuration.commits.message).run runner completed = (.ok c, w')) :
    ∃ a, e.Settled k source directory home u xml w' a c := by
  -- the file of the project is there when it is registered, whether as it was first written or not
  have placed : Placed home w.disk (directory.join (e.projectName source)) :=
    (filled.placed _ project_early).still (straight _ (List.mem_append_left _ project_early))
      filled.still
  have there : ((b.stageAll home directory (e.earlyFiles source u xml)).index
      (wayTo home (directory.join (e.projectName source)))).isSome = true :=
    stageAll_isSome (.inr ⟨_, project_early, rfl⟩)
  obtain ⟨content, indexed⟩ := Option.isSome_iff_exists.mp there
  obtain ⟨opens, held, storable, stay⟩ := Registry.register_holds lawful filled.holds
    placed.writable.located (present_of_index filled.holds indexed) registered
  have last := Scaffold.writeReadme_written lawful absolute held wrote
  obtain ⟨a, holds, still, is, index, idle, tree⟩ := commitStaged_holds lawful last.holds committed
  have joined : (b.stageAll home directory (e.earlyFiles source u xml)).stageAll home directory
      [(Scaffold.readmeName, e.configuration.project.readme)]
      = b.stageAll home directory (e.projectFiles source u xml) := stageAll_append.symm
  rw [joined] at index tree
  rw [stageAll_tree] at tree
  have staged := staged_again base index (tree.imp id fun new => new.trans index.symm)
  have settled := last.still.trans still
  have around := around_of_still settled
  refine ⟨a, holds, is, idle, staged, fun f member => ?_,
    storable_of_around held.apart storable settled.outlets.path around, content, ?_, opens⟩
  · rcases List.mem_append.mp member with early | readme
    · have reached := reached_of_placed (filled.placed f early)
      refine reached.stay fun q apart there => ?_
      have before := ((around_of_still filled.still) q apart).mpr there
      exact (around q apart).mpr (stay q before)
    · exact (reached_of_placed (last.placed f readme)).stay
        fun q apart there => (around q apart).mpr there
  · rw [← indexed]
    exact stageAll_index (.inr ⟨_, project_early, rfl⟩)

theorem build_settles (lawful : Lawful runner k) (absolute : directory.isAbsolute = true)
    (direct : Direct home directory) (named : directory.place = home) (apart : Apart home w)
    (sound : w.disk.Sound)
    (straight : ∀ f ∈ e.projectFiles source u xml, Direct home (directory.join f.1))
    (ran : (e.build source directory xml u).run runner w = (.ok (.committed c), w')) :
    ∃ a, e.Settled k source directory home u xml w' a c := by
  have early (f : String × String) (member : f ∈ e.earlyFiles source u xml) :
      Direct home (directory.join f.1) := straight f (List.mem_append_left _ member)
  obtain ⟨r, ready, projectFile, filed, kept, split, prepared, wrote, usings, delivered⟩ :=
    build_parts ran
  obtain ⟨rfl, b, holds, base⟩ := Scaffold.prepare_holds lawful direct named apart sound prepared
  obtain ⟨same, first⟩ := Scaffold.writeProjectFile_written lawful absolute holds wrote
  rw [same, Scaffold.splitUsings_parts usings] at delivered
  obtain ⟨written, sourced, added, readme, completed, source_wrote, registered, readme_wrote,
    committed⟩ := deliver_parts delivered
  have second := Scaffold.splitUsings_written lawful absolute first.holds usings
  have both := first.append second fun f member =>
    early f (List.mem_append_left _ (List.mem_append_right _ member))
  have third := Scaffold.writeSource_written lawful absolute both.holds source_wrote
  have filled := both.append third fun f member => early f (List.mem_append_right _ member)
  exact registered_settles lawful absolute base straight
    (filled.beside lawful (hear_beside filled.holds.apart)) registered readme_wrote committed

/-! ### The second run -/

-- A file that is there can be written again: so are all the directories above it.
theorem placed_of_file (sound : d.Sound) (reached : Reached home d file) (straight : Direct home file)
    (there : d.item? home = some .directory) {content : ByteArray}
    (present : d.item? (home ++ wayTo home file) = some (.file content)) : Placed home d file := by
  refine placed_of_reached reached straight there ?_ fun q _ leads other => ?_
  · rw [reached.ends, present]
    nofun
  · obtain ⟨more, same⟩ := leads
    have above : (d.item? (q ++ more)).isSome = true := by
      rw [same, reached.ends, present]
      rfl
    refine Disk.directory_above sound above ?_
    rintro rfl
    rw [List.append_nil] at same
    exact other same

-- Nothing but the directory of the project is above a file that stands in it.
theorem placed_of_single (reached : Reached home d file) (straight : Direct home file)
    (there : d.item? home = some .directory) {name : String} (single : wayTo home file = [name])
    (free : d.item? (home ++ wayTo home file) ≠ some .directory) : Placed home d file := by
  refine placed_of_reached reached straight there (reached.ends ▸ free) fun q below leads other => ?_
  rw [reached.ends, single] at leads other
  obtain ⟨middle, same⟩ := below.1
  subst same
  have leads := (List.prefix_append_right_inj home).mp leads
  rcases List.prefix_cons_iff.mp leads with rfl | ⟨rest, rfl, none⟩
  · exact absurd (List.append_nil home) below.2
  · rw [List.prefix_nil.mp none] at other
    exact absurd rfl other

-- The index cannot have a file and files below it.
theorem below_file (holds : Holds k directory home w a) {way more : Place}
    (indexed : (a.index way).isSome = true) (below : (a.index (way ++ more)).isSome = true) :
    more = [] := by
  by_cases none : more = []
  · exact none
  · obtain ⟨upper, held⟩ := Option.isSome_iff_exists.mp indexed
    obtain ⟨lower, under⟩ := Option.isSome_iff_exists.mp below
    have file := (workingTree_exact.mp (holds.matching _ _ held)).2
    have inner := (workingTree_exact.mp (holds.matching _ _ under)).2
    have present : (w.disk.item? ((home ++ way) ++ more)).isSome = true := by
      rw [List.append_assoc, inner]
      rfl
    have above := Disk.directory_above holds.stands.sound present none
    rw [file] at above
    cases above

-- A file that no listing tells of has a name of its own.
theorem single_of_silent (lawful : Lawful runner k)
    (settled : e.Settled k source directory home u xml w a c) {way : Place}
    (apart : a.tree way ≠ a.index way) (indexed : (a.index way).isSome = true) :
    ∃ name, way = [name] := by
  cases way with
  | nil =>
    obtain ⟨content, held⟩ := Option.isSome_iff_exists.mp indexed
    have file := present_of_index settled.holds held
    rw [List.append_nil, home_there lawful settled.holds.stands] at file
    cases file
  | cons name rest =>
    cases rest with
    | nil => exact ⟨name, rfl⟩
    | cons next more =>
      have long : 2 ≤ (name :: next :: more).length := Nat.le_add_left 2 more.length
      have blank := settled.idle _ apart
      rw [lawful.printed long] at blank
      cases blank

-- Where a directory was restored, what was written once can be written again.
theorem placed_again (lawful : Lawful runner k) {ended restored : World σ}
    (settled : e.Settled k source directory home u xml ended a c)
    (again : Restored k directory home a w restored) {f : String × String}
    (member : f ∈ e.projectFiles source u xml) (straight : Direct home (directory.join f.1))
    (reached : Reached home restored.disk (directory.join f.1)) :
    Placed home restored.disk (directory.join f.1) := by
  have there := home_there lawful again.stands
  have indexed : (a.index (wayTo home (directory.join f.1))).isSome = true := by
    rw [← settled.staged]
    exact stageAll_isSome (.inr ⟨f, member, rfl⟩)
  cases held : a.tree (wayTo home (directory.join f.1)) with
  | some content =>
    rw [← again.files] at held
    exact placed_of_file again.stands.sound reached straight there (workingTree_exact.mp held).2
  | none =>
    -- no listing tells of the file, so it stands in the directory itself
    have apart : a.tree (wayTo home (directory.join f.1))
        ≠ a.index (wayTo home (directory.join f.1)) := by
      rw [held]
      intro same
      rw [← same] at indexed
      cases indexed
    obtain ⟨name, single⟩ := single_of_silent lawful settled apart indexed
    refine placed_of_single reached straight there single fun stands => ?_
    rcases again.swept with same | swept
    · exact apart (congrFun same.symm _)
    · have away : wayTo home (directory.join f.1) ≠ [] := by
        rw [single]
        exact List.cons_ne_nil _ _
      obtain ⟨more, inner⟩ := swept _ away reached.free stands
      have kept : (a.index (wayTo home (directory.join f.1) ++ more)).isSome = true := by
        rw [← settled.staged]
        exact stageAll_isSome (.inl inner)
      rw [below_file settled.holds indexed kept, List.append_nil, held] at inner
      cases inner

-- The file of the project, written on top of an index, reads as that of a project when it is registered.
def Opens (e : Expansion) (directory : Path) (home : Place) (source : Path) (u : Source.Unit) (xml : String)
    (a : Archive) : Prop :=
  ∃ content, (a.stageAll home directory (e.earlyFiles source u xml)).index
      (wayTo home (directory.join (source.stem ++ e.configuration.project.extension))) = some content ∧
    Registry.openingOf content = .ok .project

-- From the source on: what is left is to commit what has been staged.
theorem deliver_completes (lawful : Lawful runner k) (absolute : directory.isAbsolute = true) {ready : World σ}
    (straight : ∀ f ∈ e.projectFiles source u xml, Direct home (directory.join f.1))
    (placed : ∀ f ∈ e.projectFiles source u xml, Placed home ready.disk (directory.join f.1))
    (storable : Registry.Storable w)
    (early : Scaffold.Written k directory home
      ([(e.projectName source, xml)]
        ++ Scaffold.usingFiles (e.configuration.project.globalUsings ++ source.suffix) u) ready w a)
    (opens : e.Opens directory home source u xml a) :
    ∃ completed, Holds k directory home completed (a.stageAll home directory (e.projectFiles source u xml)) ∧
      ∀ c w', (Repository.commitStaged ⟨directory⟩ e.configuration.commits.identity
          e.configuration.commits.message).run runner completed = (.ok c, w') →
        (e.deliver source directory ⟨directory⟩ (directory.join (e.projectName source))
          (u.without u.usings)).run runner w = (.ok (.committed c), w') := by
  have inEarly {f : String × String} (member : f ∈ e.earlyFiles source u xml) :
      f ∈ e.projectFiles source u xml := List.mem_append_left _ member
  have sourceFile : (source.name, (u.without u.usings).fullText) ∈ e.earlyFiles source u xml :=
    List.mem_append_right _ List.mem_cons_self
  have readmeFile : (Scaffold.readmeName, e.configuration.project.readme)
      ∈ e.projectFiles source u xml := List.mem_append_right _ List.mem_cons_self
  obtain ⟨sourced, wrote, third⟩ := Scaffold.writeSource_answers lawful absolute early.holds
    (u.without u.usings)
    ((placed _ (inEarly sourceFile)).still (straight _ (inEarly sourceFile)) early.still)
  have told := hear_beside
    (n := ⟨.info, part, "Wrote source to " ++ (directory.join source.name).toString⟩)
    third.holds.apart
  have filled : Scaffold.Written k directory home (e.earlyFiles source u xml) ready _ _ :=
    (early.append third fun f member =>
      straight f (inEarly (List.mem_append_right _ member))).beside lawful told
  obtain ⟨content, indexed, opened⟩ := opens
  have project := (placed _ (inEarly project_early)).still (straight _ (inEarly project_early))
    filled.still
  have settledStill := third.still.trans (still_of_beside told)
  have kept := storable_of_around early.holds.apart storable settledStill.outlets.path
    (around_of_still settledStill)
  obtain ⟨added, registered, beside⟩ : ∃ added,
      (Registry.register (directory.join (e.projectName source))
        e.configuration.project.defaultXml).run runner
          (hear ⟨.info, part, "Wrote source to " ++ (directory.join source.name).toString⟩ sourced)
        = (.ok false, added) ∧
      Beside home (hear ⟨.info, part, "Wrote source to " ++ (directory.join source.name).toString⟩
        sourced) added :=
    Registry.register_answers filled.holds project.writable.located
      (present_of_index filled.holds indexed) opened kept
  have complete := filled.beside lawful beside
  obtain ⟨completed, readmeWritten, last⟩ := Scaffold.writeReadme_answers lawful absolute
    complete.holds e.configuration.project.readme
    ((placed _ readmeFile).still (straight _ readmeFile) complete.still)
  have holds := last.holds
  rw [← stageAll_append] at holds
  exact ⟨completed, holds, fun c w' committed => deliver_of_parts wrote registered readmeWritten committed⟩

-- From where the directory is ready.
theorem build_completes (lawful : Lawful runner k) (absolute : directory.isAbsolute = true) {ready : World σ}
    (prepared : (e.scaffold.prepare directory).run runner w = (.ok ⟨directory⟩, ready))
    (holds : Holds k directory home ready a)
    (straight : ∀ f ∈ e.projectFiles source u xml, Direct home (directory.join f.1))
    (placed : ∀ f ∈ e.projectFiles source u xml, Placed home ready.disk (directory.join f.1))
    (storable : Registry.Storable ready) (opens : e.Opens directory home source u xml a) :
    ∃ completed, Holds k directory home completed (a.stageAll home directory (e.projectFiles source u xml)) ∧
      ∀ c w', (Repository.commitStaged ⟨directory⟩ e.configuration.commits.identity
          e.configuration.commits.message).run runner completed = (.ok c, w') →
        (e.build source directory xml u).run runner w = (.ok (.committed c), w') := by
  have early {f : String × String} (member : f ∈ e.earlyFiles source u xml) :
      f ∈ e.projectFiles source u xml := List.mem_append_left _ member
  have usingMember {f : String × String}
      (member : f ∈ Scaffold.usingFiles (e.configuration.project.globalUsings ++ source.suffix) u) :
      f ∈ e.projectFiles source u xml :=
    early (List.mem_append_left _ (List.mem_append_right _ member))
  have projectFile : Placed home ready.disk (directory.join (e.projectName source)) :=
    placed (e.projectName source, xml) (early project_early)
  obtain ⟨filed, wrote, first⟩ : ∃ w', (e.scaffold.writeProjectFile ⟨directory⟩ directory source.stem
      xml).run runner ready = (.ok (directory.join (e.projectName source)), w') ∧
        Scaffold.Written k directory home [(e.projectName source, xml)] ready w' a :=
    Scaffold.writeProjectFile_answers lawful absolute holds xml projectFile
  obtain ⟨split, usings, second⟩ := Scaffold.splitUsings_answers lawful absolute first.holds
    fun f member => (placed f (usingMember member)).still (straight f (usingMember member)) first.still
  have both := first.append second fun f member => straight f (usingMember member)
  have settledStill := both.still
  obtain ⟨completed, filled, delivers⟩ := deliver_completes lawful absolute straight placed
    (storable_of_around holds.apart storable settledStill.outlets.path (around_of_still settledStill)) both opens
  exact ⟨completed, filled, fun c w' committed => build_of_parts prepared wrote usings (delivers c w' committed)⟩

-- Whatever the repository was brought into, as long as its history and its index are those that the first
-- run left.
theorem build_again (lawful : Lawful runner k) (absolute : directory.isAbsolute = true)
    {ended : World σ} (settled : e.Settled k source directory home u xml ended a c)
    (straight : ∀ f ∈ e.projectFiles source u xml, Direct home (directory.join f.1))
    (stands : Stands k directory home w.git w.disk a) (apart : Apart home w)
    (storable : Registry.Storable w)
    (reached : ∀ f ∈ e.projectFiles source u xml, Reached home w.disk (directory.join f.1)) :
    ∃ w', (e.build source directory xml u).run runner w = (.ok (.committed c), w') ∧
      Holds k directory home w' a := by
  have direct := settled.holds.direct
  have born : a.commits ≠ [] := by
    intro none
    have last := settled.last
    rw [Archive.last, none] at last
    cases last
  obtain ⟨ready, prepared, restored⟩ : ∃ w', (e.scaffold.prepare directory).run runner w
      = (.ok ⟨directory⟩, w') ∧ Restored k directory home a w w' :=
    Scaffold.prepare_answers lawful direct apart stands born
  have placed (f : String × String) (member : f ∈ e.projectFiles source u xml) :
      Placed home ready.disk (directory.join f.1) :=
    placed_again lawful settled restored member (straight f member)
      ((reached f member).stay fun q outside there => (restored.directories q outside).mpr there)
  obtain ⟨completed, filled, builds⟩ := build_completes lawful absolute prepared
    (Scaffold.holds_of_restored direct apart restored) straight placed
    (storable_of_around apart storable restored.outlets.path restored.directories) settled.opens
  rw [settled.staged] at filled
  obtain ⟨w', committed, held⟩ : ∃ w', (Repository.commitStaged ⟨directory⟩
      e.configuration.commits.identity e.configuration.commits.message).run runner completed
        = (.ok c, w') ∧ Holds k directory home w' a := by
    obtain ⟨w', committed, held, _⟩ := commitStaged_answers lawful filled settled.last settled.idle
    exact ⟨w', committed, held⟩
  exact ⟨w', builds c w' committed, held⟩

end InlineProject.Expansion
