import InlineProject.Proofs.MemoryProgram
import InlineProject.Proofs.SettledProject
/-!
A source file that is processed a second time. Where the commit of the first run was that of the first
comment, the second run ends in the same commit and leaves the same files, whatever has happened to the
directory of the project in between.
-/

namespace InlineProject.Configuration

open InlineProject.Git (join_absolute)

theorem bind_parts {ε α β : Type} {x : Except ε α} {f : α → Except ε β} {y : β}
    (ended : (x >>= f) = .ok y) : ∃ v, x = .ok v ∧ f v = .ok y := by
  cases x with
  | error e => cases ended
  | ok v => exact ⟨v, rfl, ended⟩

theorem ofDocument_output {root output : Path} {l : Yaml.Loaded} {top : Yaml.Value}
    {c : Configuration} (absolute : root.isAbsolute = true) (settled : ofDocument root l top = .ok c)
    (configured : c.output = some output) : output.isAbsolute = true := by
  unfold ofDocument at settled
  obtain ⟨named, _, settled⟩ := bind_parts settled
  obtain ⟨_, _, settled⟩ := bind_parts settled
  obtain ⟨_, _, settled⟩ := bind_parts settled
  obtain ⟨_, _, settled⟩ := bind_parts settled
  obtain ⟨_, _, settled⟩ := bind_parts settled
  obtain ⟨_, _, settled⟩ := bind_parts settled
  cases settled
  obtain ⟨name, _, rfl⟩ := Option.map_eq_some_iff.mp configured
  exact join_absolute absolute

theorem locate_absolute {d d' : Disk} {here p file : Path}
    (found : (locate here p).run.run d = (.ok file, d')) : file.isAbsolute = true := by
  unfold locate at found
  obtain ⟨inside, middle, _, found⟩ := DiskAction.bind_parts found
  have resolved {q : Path} (ran : (DiskAction.resolve here q).run.run middle = (.ok file, d')) :
      file.isAbsolute = true := by
    unfold DiskAction.resolve at ran
    split at ran
    · cases ran
    · cases ran
      rfl
  cases inside with
  | true => exact resolved found
  | false => exact resolved found

theorem contentAt_absolute {d d' : Disk} {here p file : Path}
    {content : Option (Except FileError ByteArray)}
    (found : (contentAt here p).run.run d = (.ok (file, content), d')) : file.isAbsolute = true := by
  unfold contentAt at found
  obtain ⟨named, middle, located, found⟩ := DiskAction.bind_parts found
  obtain ⟨there, last, _, found⟩ := DiskAction.bind_parts found
  have same : named = file := by
    cases there with
    | true =>
      cases found
      rfl
    | false =>
      cases found
      rfl
  exact same ▸ locate_absolute located

-- What is configured is all by default, or it is what a document says.
theorem load_cases {d : Disk} {here p : Path} {c : Configuration} (loaded : load d here p = .ok c) :
    ∃ root, root.isAbsolute = true ∧
      (c = default root ∨ ∃ l top, ofDocument root l top = .ok c) := by
  unfold load at loaded
  split at loaded
  · cases loaded
  · rename_i file d' found
    cases loaded
    have own : file.isAbsolute = true := contentAt_absolute found
    exact ⟨file.parent, own, .inl rfl⟩
  · cases loaded
  · rename_i file content d' found
    have own : file.isAbsolute = true := contentAt_absolute found
    refine ⟨file.parent, own, ?_⟩
    unfold ofBytes at loaded
    split at loaded
    · cases loaded
    · unfold ofText at loaded
      split at loaded
      · cases loaded
        exact .inl rfl
      · split at loaded
        · split at loaded <;> cases loaded
        · split at loaded
          · cases loaded
            exact .inl rfl
          · split at loaded
            · exact .inr ⟨_, _, loaded⟩
            · cases loaded

-- The configured output is absolute, since the file of a configuration is found by an absolute path.
theorem load_output {d : Disk} {here p output : Path} {c : Configuration}
    (loaded : load d here p = .ok c) (configured : c.output = some output) :
    output.isAbsolute = true := by
  obtain ⟨root, absolute, rfl | ⟨l, top, settled⟩⟩ := load_cases loaded
  · cases configured
  · exact ofDocument_output absolute settled configured

end InlineProject.Configuration

namespace InlineProject.Expansion

open InlineProject.Action InlineProject.Git

variable {σ : Type} {runner : Runner σ} {k : Keeping σ} {e : Expansion}
  {source output directory : Path} {home : Place} {w w' again : World σ} {a : Archive} {c : Commit}
  {u : Source.Unit} {d : Source.Node} {xml : String} {asked : Option Path}

/-! ### Up to the directory of the project -/

theorem projectXml_answers (apart : Apart home w)
    (described : e.normalizer.normalize (Descriptor.ofComment d.text) = .ok xml) :
    ∃ w', (e.projectXml d).run runner w = (.ok xml, w') ∧ Beside home w w' := by
  unfold Normalizer.normalize at described
  unfold projectXml
  cases found : e.normalizer.read (Descriptor.ofComment d.text).toList with
  | error cause =>
    rw [found] at described
    cases described
  | ok reading =>
    rw [found] at described
    obtain rfl := Except.ok.inj described
    dsimp only
    cases reading.note? with
    | some message =>
      refine ⟨_, bind_ok (run_note _ _ _), hear_beside apart⟩
    | none => exact ⟨w, rfl, .refl⟩

-- What describes a project once describes it always.
theorem projectXml_beside (apart : Apart home w)
    (ran : (e.projectXml d).run runner w = (.ok xml, w')) : Beside home w w' := by
  obtain ⟨ended, same, beside⟩ : ∃ ended, (e.projectXml d).run runner w = (.ok xml, ended) ∧
      Beside home w ended := projectXml_answers apart (projectXml_parts ran)
  rw [ran] at same
  obtain ⟨_, rfl⟩ := Prod.mk.inj same
  exact beside

theorem evict_parts (apart : Apart home w) {name : String}
    (ran : (evict name).run runner w = (.ok (), w')) :
    SameOutlets w w' ∧ (w.disk.Sound → w'.disk.Sound) := by
  unfold evict at ran
  obtain ⟨found, middle, asked, ran⟩ := bind_parts ran
  cases asked
  split at ran
  · obtain ⟨removed, ended, released, ran⟩ := bind_parts ran
    obtain ⟨_, rfl⟩ := pure_parts ran
    exact Registry.release_parts apart released
  · obtain ⟨_, rfl⟩ := pure_parts ran
    exact ⟨.refl, id⟩

theorem evict_answers (apart : Apart home w) (storable : Registry.Storable w) {name : String} :
    ∃ w', (evict name).run runner w = (.ok (), w') ∧ Beside home w w' := by
  have found : (Registry.find name).run runner w
      = (.ok (w.registry.find? (Text.ofString name)), w) := rfl
  unfold evict
  rw [bind_ok found]
  split
  · obtain ⟨removed, w', released, beside⟩ : ∃ removed w',
        (Registry.release name).run runner w = (.ok removed, w') ∧ Beside home w w' :=
      Registry.release_answers apart storable
    exact ⟨w', bind_ok released, beside⟩
  · exact ⟨w, rfl, .refl⟩

/-! ### The project of a file -/

-- Where the project of a file goes.
def outputOf (e : Expansion) (file : Path) (asked : Option Path) : Path :=
  (asked.map (·.resolve e.here)).getD
    (e.configuration.output.getD (file.resolve e.here).parent)

theorem outputOf_absolute {file : Path} {name : String}
    (configured : ∀ p, e.configuration.output = some p → p.isAbsolute = true) :
    ((e.outputOf file asked).join name).isAbsolute = true := by
  refine join_absolute ?_
  unfold outputOf
  cases asked with
  | some p => rfl
  | none =>
    cases output : e.configuration.output with
    | none => rfl
    | some p => exact configured p output

-- The names of the files in the project of a source, which has its directives in a file of their own if
-- it has any.
def artifactNames (e : Expansion) (source : Path) (u : Source.Unit) : List String :=
  [e.projectName source]
    ++ (if u.distinctUsings.isEmpty then []
      else [e.configuration.project.globalUsings ++ source.suffix])
    ++ [source.name] ++ [Scaffold.readmeName]

theorem projectFiles_names : (e.projectFiles source u xml).map (·.1) = e.artifactNames source u := by
  unfold projectFiles earlyFiles artifactNames Scaffold.usingFiles
  cases u.distinctUsings.isEmpty <;> rfl

-- No path to the directory or to one of its files enters the directory and leaves it again by a step to
-- the parent.
structure Straight (e : Expansion) (source directory : Path) (u : Source.Unit) : Prop where
  itself : Direct directory.place directory
  files : ∀ name ∈ e.artifactNames source u, Direct directory.place (directory.join name)

theorem Straight.project (straight : e.Straight source directory u) :
    ∀ f ∈ e.projectFiles source u xml, Direct directory.place (directory.join f.1) := by
  intro f member
  have names : (e.projectFiles source u xml).map (·.1) = e.artifactNames source u :=
    projectFiles_names
  refine straight.files f.1 ?_
  rw [← names]
  exact List.mem_map_of_mem member

-- What may happen between two runs: whatever there is may change, but for what the program keeps in the
-- directory of the project and the directories outside of it.
structure Between (k : Keeping σ) (home : Place) (w w' : World σ) : Prop where
  sound : w'.disk.Sound
  archived : k.archive w'.git w'.disk home = k.archive w.git w.disk home
  directories : ∀ q, ¬Below home q → w.disk.item? q = some .directory →
    w'.disk.item? q = some .directory
  path : w'.registry.path = w.registry.path
  store : ∀ p, w'.registry.path = some p → w'.disk.item? p.place ≠ some .directory
  journal : ∀ j p, w'.journal = some j → j.file = some p → ¬home <+: p.place

-- What the program keeps is left alone when it and its place are.
theorem archived_of_untouched (lawful : Lawful runner k) (git : w'.git = w.git)
    (untouched : ∀ q, metadataPlace home <+: q → w'.disk.item? q = w.disk.item? q) :
    k.archive w'.git w'.disk home = k.archive w.git w.disk home := by
  rw [git]
  exact lawful.same untouched

theorem Settled.beside (lawful : Lawful runner k)
    (settled : e.Settled k source directory home u xml w a c) (beside : Beside home w w') :
    e.Settled k source directory home u xml w' a c := by
  obtain ⟨holds, last, idle, staged, reached, storable, opens⟩ := settled
  refine ⟨holds.beside lawful beside, last, idle, staged, fun f member => ?_,
    storable.beside beside, opens⟩
  exact (reached f member).stay fun q _ there => (beside.directories q trivial).mpr there

-- Where the second run begins.
structure Resumed (k : Keeping σ) (e : Expansion) (source directory : Path) (home : Place)
    (u : Source.Unit) (xml : String) (w : World σ) (a : Archive) : Prop where
  stands : Stands k directory home w.git w.disk a
  apart : Apart home w
  storable : Registry.Storable w
  reached : ∀ f ∈ e.projectFiles source u xml, Reached home w.disk (directory.join f.1)

theorem Resumed.beside (lawful : Lawful runner k)
    (resumed : e.Resumed k source directory home u xml w a) (beside : Beside home w w') :
    e.Resumed k source directory home u xml w' a := by
  obtain ⟨stands, apart, storable, reached⟩ := resumed
  refine ⟨stands.beside lawful beside, apart.outlets beside.outlets, storable.beside beside,
    fun f member => ?_⟩
  exact (reached f member).stay fun q _ there => (beside.directories q trivial).mpr there

theorem resumed_of_between (settled : e.Settled k source directory home u xml w a c)
    (between : Between k home w w') : e.Resumed k source directory home u xml w' a := by
  have stands := settled.holds.stands
  have aside := stands.aside settled.holds.direct
  obtain ⟨clean, named, left, short⟩ := Disk.locate_exact.mp stands.located
  have located : w'.disk.locate directory = .ok home :=
    Disk.locate_exact.mpr
      ⟨clean, named, fun q on => between.directories q (aside q on) (left q on), short⟩
  refine ⟨⟨between.sound, located, between.archived.trans stands.archived⟩,
    ⟨between.journal, fun p on => ?_⟩, fun p on => ?_, fun f member => ?_⟩
  · exact settled.holds.apart.store p (between.path ▸ on)
  · -- the file of the registry is outside, and so is all that leads to it
    have on' := between.path ▸ on
    obtain ⟨direct, outside⟩ := settled.holds.apart.store p on'
    have guarded := guarded_aside direct fun below => outside below.1
    obtain ⟨located, _, parent⟩ := settled.storable p on'
    obtain ⟨clean, named, left, short⟩ := Disk.locate_exact.mp located
    exact ⟨Disk.locate_exact.mpr ⟨clean, named, fun q on =>
        between.directories q (guarded.trail q on) (left q on), short⟩,
      between.store p on, between.directories _ guarded.parent parent⟩
  · exact (settled.reached f member).stay between.directories

/-! ### Both runs -/

theorem expandComment_settles (lawful : Lawful runner k)
    (absolute : (output.join source.stem).isAbsolute = true)
    (straight : e.Straight source (output.join source.stem) (u.without [d]))
    (apart : Apart (output.join source.stem).place w) (sound : w.disk.Sound)
    (ran : (e.expandComment source output u d).run runner w = (.ok (.committed c), w')) :
    ∃ xml a, e.normalizer.normalize (Descriptor.ofComment d.text) = .ok xml ∧
      xml.isEmpty = false ∧
      e.Settled k source (output.join source.stem) (output.join source.stem).place (u.without [d])
        xml w' a c := by
  obtain ⟨xml, read, evicted, described, present, gone, built⟩ := expandComment_built ran
  have first := projectXml_beside apart described
  have second := hear_beside
    (n := ⟨.info, part, "Expanding project directory: " ++ (output.join source.stem).toString⟩)
    (apart.outlets first.outlets)
  have both := first.trans second
  obtain ⟨outlets, sounds⟩ := evict_parts (apart.outlets both.outlets) gone
  obtain ⟨a, settled⟩ := build_settles lawful absolute straight.itself rfl
    (apart.outlets (both.outlets.trans outlets)) (sounds (both.sound sound)) straight.project built
  exact ⟨xml, a, projectXml_parts described, present, settled⟩

theorem expandComment_again (lawful : Lawful runner k)
    (absolute : (output.join source.stem).isAbsolute = true)
    (straight : e.Straight source (output.join source.stem) (u.without [d])) {ended : World σ}
    (described : e.normalizer.normalize (Descriptor.ofComment d.text) = .ok xml)
    (present : xml.isEmpty = false)
    (settled : e.Settled k source (output.join source.stem) (output.join source.stem).place
      (u.without [d]) xml ended a c)
    (resumed : e.Resumed k source (output.join source.stem) (output.join source.stem).place
      (u.without [d]) xml w a) :
    ∃ w', (e.expandComment source output u d).run runner w = (.ok (.committed c), w') ∧
      Holds k (output.join source.stem) (output.join source.stem).place w' a := by
  obtain ⟨read, reading, first⟩ : ∃ read, (e.projectXml d).run runner w = (.ok xml, read) ∧
      Beside (output.join source.stem).place w read := projectXml_answers resumed.apart described
  have second := hear_beside
    (n := ⟨.info, part, "Expanding project directory: " ++ (output.join source.stem).toString⟩)
    (resumed.apart.outlets first.outlets)
  have told := (resumed.beside lawful first).beside lawful second
  obtain ⟨evicted, gone, third⟩ := evict_answers told.apart told.storable
  obtain ⟨stands, apart, storable, reached⟩ := told.beside lawful third
  obtain ⟨w', built, held⟩ := build_again lawful absolute settled straight.project stands apart
    storable reached
  exact ⟨w', expandComment_of_built reading present gone built, held⟩

-- What a path stands for does not depend on the world.
theorem resolve_again {here p resolved : Path}
    (ran : (onDisk (DiskAction.resolve here p)).run runner w = (.ok resolved, w')) :
    (onDisk (DiskAction.resolve here p)).run runner again = (.ok resolved, again) := by
  obtain ⟨disk, done, _⟩ := onDisk_parts ran
  rw [run_onDisk]
  unfold DiskAction.resolve at done ⊢
  split at done
  · cases done
  · rename_i clean
    cases done
    rw [if_neg clean]
    rfl

theorem outputFor_again (ran : (e.outputFor source asked).run runner w = (.ok output, w')) :
    (e.outputFor source asked).run runner again = (.ok output, again) := by
  unfold outputFor at ran ⊢
  cases asked with
  | some p => exact resolve_again ran
  | none =>
    obtain ⟨same, _⟩ := pure_parts ran
    rw [← same]
    rfl

theorem processFileBy_of_first {parse : String → Source.Unit} {file : Path} {text : String}
    {rest : List Source.Node} {o : Outcome}
    (resolved : (onDisk (DiskAction.resolve e.here file)).run runner w
      = (.ok (file.resolve e.here), w))
    (read : textAt (opened (file.resolve e.here) w).disk (file.resolve e.here) = .ok text)
    (present : text.isEmpty = false)
    (placed : (e.outputFor (file.resolve e.here) asked).run runner
      (opened (file.resolve e.here) w) = (.ok output, opened (file.resolve e.here) w))
    (first : (parse text).descriptorComments = d :: rest)
    (expanded : (e.expandComment (file.resolve e.here) output (parse text) d).run runner
      (opened (file.resolve e.here) w) = (.ok o, w')) :
    (e.processFileBy parse file asked).run runner w
      = (.ok o, hear ⟨.info, part, "Processed " ++ (file.resolve e.here).toString⟩ w') := by
  unfold processFileBy
  rw [bind_ok resolved, bind_ok (run_note _ _ _), bind_ok run_get]
  rw [show hear _ w = opened (file.resolve e.here) w from rfl, read]
  dsimp only
  rw [present, if_neg Bool.false_ne_true]
  unfold processUnit Descriptor.extract
  rw [bind_ok placed, first, bind_ok (firstHandled_of_first expanded)]
  simp only [expandComment_handled expanded, if_true]
  rw [bind_ok (run_note _ _ _)]
  rfl

-- The files of the project are in the index, and stand where the index is held to.
theorem Settled.artifact (settled : e.Settled k source directory home u xml w a c)
    (holds : Holds k directory home w' a) {name : String} (named : name ∈ e.artifactNames source u) :
    ∃ content, w.disk.item? (directory.join name).place = some (.file content) ∧
      w'.disk.item? (directory.join name).place = some (.file content) := by
  have names : (e.projectFiles source u xml).map (·.1) = e.artifactNames source u :=
    projectFiles_names
  rw [← names] at named
  obtain ⟨f, member, rfl⟩ := List.mem_map.mp named
  have indexed : (a.index (wayTo home (directory.join f.1))).isSome = true := by
    rw [← settled.staged]
    exact stageAll_isSome (.inr ⟨f, member, rfl⟩)
  obtain ⟨content, indexed⟩ := Option.isSome_iff_exists.mp indexed
  rw [(settled.reached f member).ends]
  exact ⟨content, present_of_index settled.holds indexed, present_of_index holds indexed⟩

-- A run that deals with a comment, and whose first comment does not fail, expands that comment.
theorem processFileBy_first {parse : String → Source.Unit} {file : Path} {text : String}
    {rest : List Source.Node} {o : Outcome}
    (read : textAt (opened (file.resolve e.here) w).disk (file.resolve e.here) = .ok text)
    (first : (parse text).descriptorComments = d :: rest)
    (unfailed : ∀ f, ((e.expandComment (file.resolve e.here) (e.outputOf file asked) (parse text)
      d).run runner (opened (file.resolve e.here) w)).1 ≠ .error f)
    (ran : (e.processFileBy parse file asked).run runner w = (.ok o, w'))
    (handled : o.handled = true) :
    ∃ expanded, (onDisk (DiskAction.resolve e.here file)).run runner w
        = (.ok (file.resolve e.here), w) ∧
      text.isEmpty = false ∧
      (e.outputFor (file.resolve e.here) asked).run runner (opened (file.resolve e.here) w)
        = (.ok (e.outputOf file asked), opened (file.resolve e.here) w) ∧
      (e.expandComment (file.resolve e.here) (e.outputOf file asked) (parse text) d).run runner
        (opened (file.resolve e.here) w) = (.ok o, expanded) ∧
      w' = hear ⟨.info, part, "Processed " ++ (file.resolve e.here).toString⟩ expanded := by
  rcases processFileBy_cases ran with rfl | ⟨text', resolved, read', present, processed⟩
  · cases handled
  obtain rfl : text = text' := Except.ok.inj (read.symm.trans read')
  obtain ⟨output, failed, d', rest', middle, expanded, placed, split, failing, one, ended⟩ :=
    processUnit_parts processed handled
  have same : output = e.outputOf file asked := (outputFor_parts placed).1
  rw [same] at placed failing one
  rw [first] at split
  cases failing with
  | cons cut _ _ =>
    obtain ⟨rfl, _⟩ := List.cons.inj split
    exact absurd (congrArg Prod.fst cut) (unfailed _)
  | none =>
    obtain ⟨rfl, _⟩ := List.cons.inj split
    exact ⟨expanded, resolved, present, placed, one, ended⟩

-- The second run returns the commit of the first one and makes none, and the files of the project are
-- again what they were.
theorem repeated_run_same {parse : String → Source.Unit} {file : Path} {text : String}
    {rest : List Source.Node} (lawful : Lawful runner k)
    (configured : ∀ p, e.configuration.output = some p → p.isAbsolute = true)
    (source_is : source = file.resolve e.here) (output_is : output = e.outputOf file asked)
    (directory_is : directory = output.join source.stem) (home_is : home = directory.place)
    (sound : w.disk.Sound) (apart : Apart home w)
    (read : textAt (opened source w).disk source = .ok text)
    (first : (parse text).descriptorComments = d :: rest)
    (straight : e.Straight source directory ((parse text).without [d]))
    (unfailed : ∀ f, ((e.expandComment source output (parse text) d).run runner
      (opened source w)).1 ≠ .error f)
    (ran : (e.processFileBy parse file asked).run runner w = (.ok (.committed c), w'))
    (between : Between k home w' again)
    (readAgain : textAt (opened source again).disk source = .ok text) :
    ∃ ended, (e.processFileBy parse file asked).run runner again = (.ok (.committed c), ended) ∧
      k.archive ended.git ended.disk home = k.archive w'.git w'.disk home ∧
      ∀ name ∈ e.artifactNames source ((parse text).without [d]), ∃ content,
        w'.disk.item? (directory.join name).place = some (.file content) ∧
        ended.disk.item? (directory.join name).place = some (.file content) := by
  have absolute : directory.isAbsolute = true := by
    rw [directory_is, output_is]
    exact outputOf_absolute configured
  rw [source_is, output_is] at unfailed
  rw [source_is] at read readAgain
  obtain ⟨expanded, resolved, present, placed, one, ended⟩ :=
    processFileBy_first read first unfailed ran rfl
  rw [← source_is, ← output_is] at one
  rw [directory_is] at straight absolute ⊢
  rw [home_is, directory_is] at apart between ⊢
  have opening := hear_beside (n := ⟨.info, part, "Processing " ++ source.toString⟩) apart
  obtain ⟨xml, a, described, some, settled⟩ := expandComment_settles lawful absolute straight
    (apart.outlets opening.outlets) (opening.sound sound) one
  rw [← source_is] at ended
  have closing := hear_beside (n := ⟨.info, part, "Processed " ++ source.toString⟩)
    settled.holds.apart
  rw [← ended] at closing
  have settled := settled.beside lawful closing
  have resumed := resumed_of_between settled between
  have reopening := hear_beside (n := ⟨.info, part, "Processing " ++ source.toString⟩)
    resumed.apart
  obtain ⟨finished, two, held⟩ := expandComment_again lawful absolute straight described some settled
    (resumed.beside lawful reopening)
  have held := held.beside lawful
    (hear_beside (n := ⟨.info, part, "Processed " ++ source.toString⟩) held.apart)
  refine ⟨_, ?_, held.stands.archived.trans settled.holds.stands.archived.symm, fun name named => ?_⟩
  · rw [source_is, output_is] at two
    rw [source_is]
    exact processFileBy_of_first (resolve_again resolved) readAgain present (outputFor_again placed)
      first two
  · exact settled.artifact held named

/-! ### Runs that are repeated -/

def toolText : String := "/// <Project Sdk=\"A\" />\nusing System;\nclass Tool { }\n"

def atBench : Expansion := ⟨.default ⟨.root, ["work"]⟩, ⟨.root, ["work"]⟩⟩

def registryAtBench : Path := ⟨.root, ["work", "registry.json"]⟩

-- One source file, no repository, and the registry beside the file.
def benchWith (text : String) (more : List (Place × Item)) : World Memory where
  disk := ⟨(["work"], .directory) :: (["work", "Tool.cs"], .file text.toUTF8) :: more⟩
  now := default
  git := fun _ => none
  calls := []
  journal := none
  console := []
  registry := .empty (some registryAtBench)

def toolSource : Path := ⟨.root, ["work", "Tool.cs"]⟩

def toolHome : Place := ["work", "Tool"]

def toolComment : Source.Node :=
  ((Source.Unit.ofString toolText).descriptorComments.head?).getD default

def toolRun (e : Expansion) : Action Memory Outcome :=
  e.processFileBy Source.Unit.ofString ⟨.here, ["Tool.cs"]⟩ none

-- A file of the project is changed, and there is a new directory with a new file.
def strewn (w : World Memory) : World Memory :=
  { w with
    disk := ((w.disk.put ["work", "Tool", "Tool.csproj"] (.file "none".toUTF8)).put
      ["work", "Tool", "obj"] .directory).put ["work", "Tool", "obj", "Tool.dll"] (.file .empty) }

theorem strewn_untouched {w : World Memory} {q : Place}
    (apart : ¬Below toolHome q ∨ metadataPlace toolHome <+: q) :
    (strewn w).disk.item? q = w.disk.item? q := by
  have other {place : Place} (below : Below toolHome place)
      (away : ¬metadataPlace toolHome <+: place) : q ≠ place := by
    rintro rfl
    exact apart.elim (fun outside => outside below) away
  unfold strewn
  dsimp only
  rw [Disk.item?_put _ _ _ _ (by decide), if_neg (other (by decide) (by decide)),
    Disk.item?_put _ _ _ _ (by decide), if_neg (other (by decide) (by decide)),
    Disk.item?_put _ _ _ _ (by decide), if_neg (other (by decide) (by decide))]

theorem strewn_between {w : World Memory} (silent : w.journal.isNone = true)
    (path : w.registry.path = some registryAtBench)
    (items : ∀ entry ∈ (strewn w).disk.items,
      (strewn w).disk.item? entry.1.dropLast = some .directory)
    (file : (strewn w).disk.item? registryAtBench.place ≠ some .directory) :
    Between Memory.keeping toolHome w (strewn w) := by
  refine ⟨Disk.sound_of_items items, ?_, fun q outside there => ?_, rfl, fun p on => ?_,
    fun j p heard => ?_⟩
  · exact archived_of_untouched Memory.lawful rfl fun q kept => strewn_untouched (.inr kept)
  · rwa [strewn_untouched (.inl outside)]
  · obtain rfl := Option.some.inj (path.symm.trans on)
    exact file
  · change w.journal = some j at heard
    rw [heard] at silent
    cases silent

-- The second run finds the repository as the first one left it, among other things.
theorem repeated_run_same_strewn :
    ∃ w' ended,
      atBench.toolRun.run Memory.runner (benchWith toolText []) = (.ok (.committed ⟨"2", "Created AdHoc Project"⟩), w') ∧
      atBench.toolRun.run Memory.runner (strewn w') = (.ok (.committed ⟨"2", "Created AdHoc Project"⟩), ended) ∧
      Memory.keeping.archive ended.git ended.disk toolHome
        = Memory.keeping.archive w'.git w'.disk toolHome ∧
      ∀ name ∈ atBench.artifactNames toolSource
          ((Source.Unit.ofString toolText).without [toolComment]), ∃ content,
        w'.disk.item? ((⟨.root, toolHome⟩ : Path).join name).place = some (.file content) ∧
        ended.disk.item? ((⟨.root, toolHome⟩ : Path).join name).place = some (.file content) := by
  obtain ⟨w', ran, silent, path, items, file, readAgain⟩ : ∃ w',
      atBench.toolRun.run Memory.runner (benchWith toolText []) = (.ok (.committed ⟨"2", "Created AdHoc Project"⟩), w') ∧
        w'.journal.isNone = true ∧ w'.registry.path = some registryAtBench ∧
        (∀ entry ∈ (strewn w').disk.items,
          (strewn w').disk.item? entry.1.dropLast = some .directory) ∧
        (strewn w').disk.item? registryAtBench.place ≠ some .directory ∧
        textAt (opened toolSource (strewn w')).disk toolSource = .ok toolText := by
    have facts : (atBench.toolRun.run Memory.runner (benchWith toolText [])).1
          = .ok (.committed ⟨"2", "Created AdHoc Project"⟩) ∧
        (atBench.toolRun.run Memory.runner (benchWith toolText [])).2.journal.isNone = true ∧
        (atBench.toolRun.run Memory.runner (benchWith toolText [])).2.registry.path = some registryAtBench ∧
        (∀ entry ∈ (strewn (atBench.toolRun.run Memory.runner (benchWith toolText [])).2).disk.items,
          (strewn (atBench.toolRun.run Memory.runner (benchWith toolText [])).2).disk.item? entry.1.dropLast
            = some .directory) ∧
        (strewn (atBench.toolRun.run Memory.runner (benchWith toolText [])).2).disk.item? registryAtBench.place
          ≠ some .directory ∧
        textAt (opened toolSource (strewn (atBench.toolRun.run Memory.runner (benchWith toolText [])).2)).disk toolSource
          = .ok toolText := by
      decide +kernel
    exact ⟨_, ok_of_result facts.1, facts.2⟩
  have expanded : ((atBench.expandComment toolSource ⟨.root, ["work"]⟩
      (Source.Unit.ofString toolText) toolComment).run Memory.runner
        (opened toolSource (benchWith toolText []))).1
      = .ok (.committed ⟨"2", "Created AdHoc Project"⟩) := by decide +kernel
  have configured : ∀ p, atBench.configuration.output = some p → p.isAbsolute = true := by
    intro p on
    cases on
  have source_is : toolSource = Path.resolve ⟨.here, ["Tool.cs"]⟩ atBench.here := by decide
  have output_is : (⟨.root, ["work"]⟩ : Path) = atBench.outputOf ⟨.here, ["Tool.cs"]⟩ none := by
    decide
  have directory_is : (⟨.root, toolHome⟩ : Path) = Path.join ⟨.root, ["work"]⟩ toolSource.stem := by
    decide
  have sound : (benchWith toolText []).disk.Sound := Disk.sound_of_items (by decide +kernel)
  have apart : Apart toolHome (benchWith toolText []) := by
    refine ⟨nofun, fun p on => ?_⟩
    obtain rfl : registryAtBench = p := Option.some.inj on
    exact ⟨by decide, by decide⟩
  have read : textAt (opened toolSource (benchWith toolText [])).disk toolSource = .ok toolText := by
    decide +kernel
  have first : (Source.Unit.ofString toolText).descriptorComments = [toolComment] := by
    decide +kernel
  have straight : atBench.Straight toolSource ⟨.root, toolHome⟩
      ((Source.Unit.ofString toolText).without [toolComment]) :=
    ⟨by decide +kernel, by decide +kernel⟩
  obtain ⟨ended, again, same, files⟩ := repeated_run_same Memory.lawful configured source_is output_is
    directory_is rfl sound apart read first straight (fun f => by rw [expanded]; nofun) ran
    (strewn_between silent path items file) readAgain
  exact ⟨w', ended, ran, again, same, files⟩

/-! ### Runs that differ -/

def twoComments : String :=
  "/// <Project Sdk=\"A\" />\n\n/// <Project Sdk=\"B\" />\nclass Tool { }\n"

-- In the directory of the project there is something where the source is to be written.
def obstacle : List (Place × Item) := [
  (toolHome, .directory),
  (toolHome ++ ["Tool.cs"], .directory),
  (toolHome ++ ["Tool.cs", "old.cs"], .file .empty)]

-- The path to the project file steps down into a directory and out of it again.
def windingAtBench : Expansion :=
  { atBench with
    configuration := { atBench.configuration with
      project := { atBench.configuration.project with extension := ".d/../Tool.csproj" } } }

def windingDirectory : List (Place × Item) := [
  (toolHome, .directory),
  (toolHome ++ ["Tool.d"], .directory)]

-- With one more file in the directory of the project.
def noted (w : World Memory) : World Memory :=
  { w with disk := w.disk.put (toolHome ++ ["notes.txt"]) (.file .empty) }

-- Where the first comment failed and the second was expanded, the first one is expanded by the next run,
-- although nothing has changed. And the directory that a path only passes through is gone when the
-- directory of the project is cleaned of a new file.
theorem second_run_differs :
    Lawful Memory.runner Memory.keeping ∧
    (∃ w', (atBench.toolRun.run Memory.runner (benchWith twoComments obstacle))
        = (.ok (.committed ⟨"2", "Created AdHoc Project"⟩), w') ∧
      (atBench.toolRun.run Memory.runner w').1
        = .ok (.committed ⟨"3", "Created AdHoc Project"⟩)) ∧
    ∃ w', (windingAtBench.toolRun.run Memory.runner (benchWith toolText windingDirectory))
        = (.ok (.committed ⟨"2", "Created AdHoc Project"⟩), w') ∧
      (windingAtBench.toolRun.run Memory.runner (noted w')).1 = .ok .nothing := by
  refine ⟨Memory.lawful, ?_, ?_⟩
  · have facts : (atBench.toolRun.run Memory.runner (benchWith twoComments obstacle)).1
          = .ok (.committed ⟨"2", "Created AdHoc Project"⟩) ∧
        (atBench.toolRun.run Memory.runner
          (atBench.toolRun.run Memory.runner (benchWith twoComments obstacle)).2).1
          = .ok (.committed ⟨"3", "Created AdHoc Project"⟩) := by
      decide +kernel
    exact ⟨_, ok_of_result facts.1, facts.2⟩
  · have facts : (windingAtBench.toolRun.run Memory.runner (benchWith toolText windingDirectory)).1
          = .ok (.committed ⟨"2", "Created AdHoc Project"⟩) ∧
        (windingAtBench.toolRun.run Memory.runner (noted
          (windingAtBench.toolRun.run Memory.runner (benchWith toolText windingDirectory)).2)).1
          = .ok .nothing := by
      decide +kernel
    exact ⟨_, ok_of_result facts.1, facts.2⟩

end InlineProject.Expansion
