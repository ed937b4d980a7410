import InlineProject.Proofs.TrackedFiles
import InlineProject.Proofs.WrittenSource
/-!
The files that a project is made of after its source has been expanded again and again. A file that has been committed
is brought back by every later run, also where that run does not write it.
-/

namespace InlineProject

open InlineProject.Action InlineProject.Git

namespace Expansion

variable {σ : Type} {runner : Runner σ} {k : Keeping σ} {e : Expansion} {l : Leeway} {file source directory : Path}
  {home way : Place} {w middle w' : World σ} {name content : String} {files : List (String × String)}
  {asked : Option Path} {c : Commit} {parse : String → Source.Unit} {texts : List String}

theorem Fits.onwards {names : List String} (fits : Fits l home) (sub : ∀ name ∈ names, name ∈ l.names) :
    Fits (l.onwards names) home := ⟨fits.named, fits.through, fun name listed => fits.inside name (sub name listed)⟩

/-! ### The end of a run -/

theorem writeStaged_staged (restoring : Restoring runner k) (fits : Fits l home)
    (absolute : l.directory.isAbsolute = true) (place : (l.directory.join name).place = home ++ way)
    (free : way.head? ≠ some metadataName)
    (wrote : (Scaffold.writeStaged ⟨l.directory⟩ (l.directory.join name) content).run runner w = (.ok (), w')) :
    Staged k home w' way := by
  obtain ⟨q, writable, staged⟩ := Scaffold.writeStaged_parts wrote
  obtain rfl : q = home ++ way := (Disk.locate_place writable.located).trans place
  unfold Repository.stage at staged
  split at staged
  · rename_i p found
    obtain ⟨text, g', d', reply, rfl⟩ := command_parts staged
    have clean := (Disk.locate_exact.mp writable.located).1
    obtain ⟨own, rfl, ends⟩ := relative_parts absolute (join_absolute absolute) clean found
    have inside : (l.directory.join name).place = l.directory.place ++ way := by rw [place, fits.named]
    have same : way = own := List.append_cancel_left (inside.symm.trans ends)
    rw [← same] at reply
    have written : (workingTree (w.disk.put (home ++ way) (.file content.toUTF8)) l.directory.place way).isSome
        = true := by
      rw [fits.named, workingTree_put (DiskAction.writable_inside writable) free]
      unfold Tree.put
      rw [if_pos rfl]
      rfl
    have reply : runner (.add l.directory (Path.toString ⟨.here, way⟩)) w.git
        (w.disk.put (home ++ way) (.file content.toUTF8)) = (.output text, g', d') := reply
    have indexed := restoring.add (Path.ofString_toString (plain_of_join inside)) written reply
    have file := restoring.files (c := .add l.directory (Path.toString ⟨.here, way⟩)) (g := w.git)
      (d := w.disk.put (home ++ way) (.file content.toUTF8)) (Call.tame_of_add rfl) way
    rw [reply] at file
    have there : (workingTree d' l.directory.place way).isSome = true := (congrArg Option.isSome file).trans written
    rw [fits.named] at indexed there
    exact ⟨there, indexed⟩
  · cases staged

-- The induction is on the files: what has been taken in stays so while the others are written.
theorem Fills.staged {f : String × String} (restoring : Restoring runner k) (fits : Fits l home)
    (absolute : l.directory.isAbsolute = true) (ground : Ground home w) (fills : Fills l runner w files w')
    (listed : ∀ f ∈ files, f.1 ∈ l.names) (member : f ∈ files) (place : (l.directory.join f.1).place = home ++ way)
    (free : way.head? ≠ some metadataName) : Staged k home w' way := by
  have onwards : Fits (l.onwards l.names) home := fits.onwards fun _ => id
  have still : Fits (l.onwards []) home := fits.onwards nofun
  induction fills with
  | done _ => exact absurd member List.not_mem_nil
  | @write w ready written w' name content files steps wrote rest ih =>
    have named : name ∈ l.names := listed _ List.mem_cons_self
    have staging : Steps (l.onwards l.names) runner ready written :=
      ((Scaffold.writeStaged_walks (l := l.onwards l.names) named).well wrote).1
    have ground := steps_ground restoring onwards (steps_ground restoring still ground steps) staging
    have listed (f : String × String) (member : f ∈ files) : f.1 ∈ l.names := listed f (List.mem_cons_of_mem _ member)
    rcases List.mem_cons.mp member with same | later
    · have place : (l.directory.join name).place = home ++ way := by rw [← place, same]
      have staged := writeStaged_staged restoring fits absolute place free wrote
      exact steps_staged restoring onwards ground rfl staged (rest.steps listed)
    · exact ih ground listed later

theorem Staged.kept (staged : Staged k home w way) (tree : (k.tree w.git w.disk home way).isSome = true) :
    Kept k home w way := by
  intro v member
  simp only [copies, Keeping.copies, List.mem_cons, List.not_mem_nil, or_false] at member
  rcases member with rfl | rfl | rfl
  · exact staged.1
  · exact staged.2
  · exact tree

theorem staged_told {names : List String} (restoring : Restoring runner k) (named : l.directory.place = home)
    (ran : (Repository.staged ⟨l.directory⟩).run runner w = (.ok names, w')) :
    names = [] ↔ k.Silent (k.tree w.git w.disk home) (k.index w.git w.disk home) := by
  unfold Repository.staged at ran
  obtain ⟨text, _, asked, ran⟩ := bind_parts ran
  obtain ⟨g', d', reply, _⟩ := callGit_parts asked
  obtain ⟨rfl, _⟩ := pure_parts ran
  have lists : k.Lists (k.tree w.git w.disk l.directory.place) (k.index w.git w.disk l.directory.place) text :=
    restoring.diff reply
  rw [← named]
  exact lists.namesIn_nil

theorem commit_kept {message : String} {identity : Identity} {allowEmpty : Bool} (restoring : Restoring runner k)
    (fits : Fits (l.onwards []) home) (ground : Ground home w) (staged : Staged k home w way)
    (ran : (Repository.commit ⟨l.directory⟩ message identity allowEmpty).run runner w = (.ok c, w')) :
    Kept k home w' way := by
  unfold Repository.commit at ran
  obtain ⟨text, made, asked, looked⟩ := bind_parts ran
  obtain ⟨g', d', reply, called⟩ := callGit_parts asked
  have other : (Call.commit l.directory message identity allowEmpty).verb
      ∉ [some "add", some "reset", some "clean"] := by
    change some "-c" ∉ _
    decide
  have first : Steps (l.onwards []) runner w made := ((Repository.calling_walks rfl other).well asked).1
  have later : Steps (l.onwards []) runner made w' := ((Repository.head_walks (l := l.onwards [])).well looked).1
  have tree : (k.tree g' d' home way).isSome = true := by
    have named : l.directory.place = home := fits.named
    have same : k.tree g' d' l.directory.place = k.index w.git w.disk l.directory.place := restoring.commit reply
    rw [← named, same, named]
    exact staged.2
  have staged := steps_staged restoring fits ground rfl staged first
  rw [called] at staged
  have kept : Kept k home made way := by
    rw [called]
    exact staged.kept tree
  exact steps_kept restoring fits (steps_ground restoring fits ground first) kept later

-- What has been taken in is in the last commit when the run ends, if its name is not a blank one.
theorem Closes.kept (restoring : Restoring runner k) (fits : Fits l home) (ground : Ground home w)
    (staged : Staged k home w way) (printed : Blank.isBlankText (k.print way).toList = false)
    (closes : e.Closes runner l.directory w c w') : Kept k home w' way := by
  have onwards : Fits (l.onwards []) home := fits.onwards nofun
  have whole : Steps (l.onwards []) runner w w' := closes.steps
  unfold Closes Repository.commitStaged at closes
  obtain ⟨names, told, asked, ran⟩ := bind_parts closes
  cases none : names.isEmpty with
  | true =>
    -- then the last commit has the file as it is in the index
    have silent := (staged_told restoring fits.named asked).mp (List.isEmpty_iff.mp none)
    have same : k.tree w.git w.disk home way = k.index w.git w.disk home way := by
      by_contra differ
      rw [silent way differ] at printed
      cases printed
    exact steps_kept restoring onwards ground (staged.kept (same ▸ staged.2)) whole
  | false =>
    simp only [none, Bool.false_eq_true, if_false] at ran
    obtain ⟨made, committed, done, ran⟩ := bind_parts ran
    obtain ⟨_, rfl⟩ := note_pure_parts ran
    have listing : Steps (l.onwards []) runner w told := ((Repository.staged_walks (l := l.onwards [])).well asked).1
    have listed := steps_ground restoring onwards ground listing
    have staged := steps_staged restoring onwards ground rfl staged listing
    have kept := commit_kept restoring onwards listed staged done
    have committing : Steps (l.onwards []) runner told committed :=
      ((Repository.commit_walks (l := l.onwards [])).well done).1
    exact steps_kept restoring onwards (steps_ground restoring onwards listed committing) kept (Step.hear _).steps

-- What the files of a run are when it has closed.
theorem Fills.kept (restoring : Restoring runner k) (fits : Fits l home)
    (absolute : l.directory.isAbsolute = true) (ground : Ground home w) (fills : Fills l runner w files middle)
    (listed : ∀ f ∈ files, f.1 ∈ l.names) (closes : e.Closes runner l.directory middle c w') :
    Ground home w' ∧ ∀ f ∈ files, ∀ way, (l.directory.join f.1).place = home ++ way →
      Staged k home w' way ∧ (Blank.isBlankText (k.print way).toList = false → Kept k home w' way) := by
  have still : Fits (l.onwards []) home := fits.onwards nofun
  have all : Fits (l.onwards l.names) home := fits.onwards fun _ => id
  have completed := steps_ground restoring all ground (fills.steps listed)
  refine ⟨steps_ground restoring still completed closes.steps, fun f member way place => ?_⟩
  obtain ⟨own, place', free⟩ := fits.inside f.1 (listed f member)
  obtain rfl : own = way := List.append_cancel_left (place'.symm.trans place)
  have staged := fills.staged restoring fits absolute ground listed member place free
  exact ⟨steps_staged restoring still completed rfl staged closes.steps,
    fun printed => closes.kept restoring fits completed staged printed⟩

/-! ### A run -/

-- A directive is another part of its file than a comment.
theorem directives_apart {g : Source.Grammar} {text : String} {d : Source.Node}
    (chosen : d ∈ (Source.Unit.parse g text).descriptorComments) :
    ∀ n ∈ (Source.Unit.parse g text).usings, n.place ≠ d.place := by
  intro n directive same
  obtain ⟨inside, comment⟩ := Source.descriptorComments_parts chosen
  obtain ⟨member, kind⟩ := List.mem_filter.mp directive
  rw [Source.eq_of_place inside member same.symm, of_decide_eq_true kind] at comment
  cases comment

theorem artifactNames_without {u : Source.Unit} {d : Source.Node} (apart : ∀ n ∈ u.usings, n.place ≠ d.place) :
    e.artifactNames source (u.without [d]) = e.artifactNames source u := by
  unfold artifactNames Source.Unit.distinctUsings
  rw [without_usings apart]

theorem lists_artifacts {u : Source.Unit} {names : List String}
    (sub : ∀ name ∈ e.artifactNames source u, name ∈ names) : e.Lists source u names := by
  constructor
  case usings =>
    intro used
    exact sub _ (mem_artifactNames.mpr (.inr ⟨rfl, used⟩))
  all_goals exact sub _ (mem_artifactNames.mpr (.inl (by simp)))

-- Calls leave a file of the directory alone where nothing is discarded.
theorem Restoring.leaves (restoring : Restoring runner k) (named : directory.place = home)
    (free : way.head? ≠ some metadataName) : Leaves runner directory (home ++ way) := by
  intro call g d here tame
  have file {d : Disk} : d.file? (home ++ way) = workingTree d home way := by
    unfold Disk.file? workingTree
    cases d.item? (home ++ way) with
    | none => simp [free]
    | some item => cases item <;> simp [free]
  have kept := restoring.files (g := g) (d := d) tame way
  rw [here, named] at kept
  rw [file, file, kept]

theorem Apart.silent (apart : Apart home w) : ¬w.Outlet (home ++ way) := by
  have above : home <+: home ++ way := List.prefix_append _ _
  rintro (⟨j, p, heard, filed, same⟩ | ⟨p, path, same⟩)
  · exact apart.journal j p heard filed (same ▸ above)
  · exact (apart.store p path).2 (same ▸ above)

theorem run_steps {text : String} {names : List String} (source_is : source = file.resolve e.here)
    (directory_is : directory = (e.outputOf file asked).join source.stem)
    (read : textAt (opened source w).disk source = .ok text)
    (sub : ∀ name ∈ e.artifactNames source (parse text), name ∈ names)
    (ran : (e.processFileBy parse file asked).run runner w = (.ok (.committed c), w')) :
    Steps (e.leeway source directory names) runner w w' := by
  refine ((processFileBy_walks source_is directory_is fun other found => ?_).well ran).1
  rw [Except.ok.inj (found.symm.trans read)]
  exact lists_artifacts sub

/-! ### Runs on a source that changes -/

-- Runs that commit, the texts that they read in order. Between two of them the source is written anew.
inductive Rounds (e : Expansion) (runner : Runner σ) (parse : String → Source.Unit) (file : Path)
    (asked : Option Path) (source : Path) : World σ → List String → World σ → Prop where
  | first {w w' : World σ} {text : String} {c : Commit}
      (read : textAt (opened source w).disk source = .ok text)
      (ran : (e.processFileBy parse file asked).run runner w = (.ok (.committed c), w')) :
      Rounds e runner parse file asked source w [text] w'
  | again {w middle w' : World σ} {texts : List String} {text : String} {content : ByteArray} {d : Disk} {c : Commit}
      (rounds : Rounds e runner parse file asked source w texts middle)
      (edited : (DiskAction.write source content).run.run middle.disk = (.ok (), d))
      (read : textAt (opened source { middle with disk := d }).disk source = .ok text)
      (ran : (e.processFileBy parse file asked).run runner { middle with disk := d } = (.ok (.committed c), w')) :
      Rounds e runner parse file asked source w (texts ++ [text]) w'

theorem edited_beside {content : ByteArray} {d : Disk} (outside : ¬home <+: source.place)
    (edited : (DiskAction.write source content).run.run w.disk = (.ok (), d)) :
    Beside home w { w with disk := d } := by
  obtain ⟨q, writable, rfl⟩ := DiskAction.write_parts edited
  obtain rfl := Disk.locate_place writable.located
  exact beside_put outside writable.noDirectory (fun _ => writable.parent) rfl ⟨rfl, rfl⟩ rfl

section

variable (restoring : Restoring runner k)
  (configured : ∀ p, e.configuration.output = some p → p.isAbsolute = true)
  (source_is : source = file.resolve e.here) (directory_is : directory = (e.outputOf file asked).join source.stem)
  (fits : Fits (e.leeway source directory (e.possibleNames source)) home)
  (apart : ∀ text, ∀ d ∈ (parse text).descriptorComments, ∀ n ∈ (parse text).usings, n.place ≠ d.place)

include restoring source_is directory_is fits configured apart

-- The files that a run has written are in the directory when it has committed, and in the last commit.
theorem run_kept {text : String} (ground : Ground home w) (read : textAt (opened source w).disk source = .ok text)
    (ran : (e.processFileBy parse file asked).run runner w = (.ok (.committed c), w')) :
    ∀ name ∈ e.artifactNames source (parse text), ∀ way, (directory.join name).place = home ++ way →
      (workingTree w'.disk home way).isSome = true ∧
      (Blank.isBlankText (k.print way).toList = false → Kept k home w' way) := by
  have absolute : directory.isAbsolute = true := by
    rw [directory_is]
    exact outputOf_absolute configured
  have left : ∀ name ∈ e.possibleNames source, Leaves runner directory (directory.join name).place := by
    intro name listed
    obtain ⟨way, place, free⟩ := fits.inside name listed
    exact place ▸ Restoring.leaves restoring fits.named free
  have silent : ∀ name ∈ e.possibleNames source, ¬w.Outlet (directory.join name).place := by
    intro name listed
    obtain ⟨way, place, free⟩ := fits.inside name listed
    exact place ▸ Apart.silent ground.apart
  obtain ⟨text', d, xml, ready, completed, expanded, read', chosen, _, steps, fills, closes, ended⟩ :=
    processFileBy_fills source_is directory_is (fun _ _ => lists_possible) left silent ran
  have same : text' = text := Except.ok.inj (read'.symm.trans read)
  rw [same] at chosen fills
  have ready := steps_ground restoring fits ground steps
  obtain ⟨grounded, files⟩ := Fills.kept restoring fits absolute ready fills (fun _ => projectFiles_possible) closes
  have ending : Steps ((e.leeway source directory (e.possibleNames source)).onwards []) runner expanded w' :=
    ended ▸ (Step.hear _).steps
  have still : Fits ((e.leeway source directory (e.possibleNames source)).onwards []) home := fits.onwards nofun
  intro name named way place
  have names : (e.projectFiles source ((parse text).without [d]) xml).map (·.1) = e.artifactNames source (parse text) :=
    projectFiles_names.trans (artifactNames_without (apart text d chosen))
  obtain ⟨f, member, rfl⟩ := List.mem_map.mp (names ▸ named)
  obtain ⟨staged, kept⟩ := files f member way place
  exact ⟨(steps_staged restoring still grounded rfl staged ending).1,
    fun printed => steps_kept restoring still grounded (kept printed) ending⟩

-- Every file that was written in one of the runs is still there, and those of the last run are there in any case.
theorem Rounds.kept (outside : ¬home <+: source.place) (ground : Ground home w)
    (rounds : Rounds e runner parse file asked source w texts w') :
    Ground home w' ∧
    (∃ text ∈ texts, ∀ name ∈ e.artifactNames source (parse text), ∀ way, (directory.join name).place = home ++ way →
      (workingTree w'.disk home way).isSome = true) ∧
    ∀ text ∈ texts, ∀ name ∈ e.artifactNames source (parse text), ∀ way, (directory.join name).place = home ++ way →
      Blank.isBlankText (k.print way).toList = false → Kept k home w' way := by
  induction rounds with
  | first read ran =>
    have written := run_kept restoring configured source_is directory_is fits apart ground read ran
    have steps := run_steps source_is directory_is read (fun _ => artifactNames_possible) ran
    refine ⟨steps_ground restoring fits ground steps, ⟨_, List.mem_singleton_self _, ?_⟩, ?_⟩
    · intro name named way place
      exact (written name named way place).1
    · intro text member name named way place
      rw [List.mem_singleton.mp member] at named
      exact (written name named way place).2
  | @again middle w' texts text content d c rounds edited read ran ih =>
    obtain ⟨ground, _, kept⟩ := ih
    have beside := edited_beside outside edited
    have ground : Ground home { middle with disk := d } :=
      ⟨beside.sound ground.sound, ground.apart.outlets beside.outlets⟩
    have written := run_kept restoring configured source_is directory_is fits apart ground read ran
    have steps := run_steps source_is directory_is read (fun _ => artifactNames_possible) ran
    refine ⟨steps_ground restoring fits ground steps, ⟨text, by simp, ?_⟩, ?_⟩
    · intro name named way place
      exact (written name named way place).1
    · intro old member name named way place printed
      rcases List.mem_append.mp member with early | last
      · refine steps_kept restoring fits ground ?_ steps
        unfold Kept
        rw [copies_beside restoring beside]
        exact kept old early name named way place printed
      · rw [List.mem_singleton.mp last] at named
        exact (written name named way place).2 printed

end

-- Nothing else comes to be there.
theorem Rounds.confined {names : List String} (restoring : Restoring runner k)
    (source_is : source = file.resolve e.here) (directory_is : directory = (e.outputOf file asked).join source.stem)
    (fits : Fits (e.leeway source directory names) home) (outside : ¬home <+: source.place) (ground : Ground home w)
    (confined : Confined k (e.leeway source directory names) home w)
    (rounds : Rounds e runner parse file asked source w texts w')
    (listed : ∀ text ∈ texts, ∀ name ∈ e.artifactNames source (parse text), name ∈ names) :
    Ground home w' ∧ Confined k (e.leeway source directory names) home w' := by
  induction rounds with
  | first read ran =>
    have steps := run_steps source_is directory_is read (listed _ (List.mem_singleton_self _)) ran
    exact ⟨steps_ground restoring fits ground steps, steps_confined restoring fits ground confined steps⟩
  | @again middle w' texts text content d c rounds edited read ran ih =>
    obtain ⟨ground, confined⟩ := ih fun text member => listed text (List.mem_append_left _ member)
    have beside := edited_beside outside edited
    have ground : Ground home { middle with disk := d } :=
      ⟨beside.sound ground.sound, ground.apart.outlets beside.outlets⟩
    have confined : Confined k (e.leeway source directory names) home { middle with disk := d } := by
      unfold Confined
      simp only [copies_beside restoring beside]
      exact confined
    have steps := run_steps source_is directory_is read (listed text (by simp)) ran
    exact ⟨steps_ground restoring fits ground steps, steps_confined restoring fits ground confined steps⟩

/-! ### The layout of a project -/

-- Where there is no directory there is nothing in it.
theorem absent_inside {d : Disk} (sound : d.Sound) (fresh : d.item? home = none) : d.item? (home ++ way) = none := by
  by_cases here : way = []
  · rw [here, List.append_nil]
    exact fresh
  · exact Disk.absent_below sound (by rw [fresh]; nofun) here

-- Where nothing is kept there is no repository.
theorem archive_bare (restoring : Restoring runner k) {g : σ} {d : Disk} (bare : d.item? (metadataPlace home) = none) :
    k.archive g d home = none := by
  cases archived : k.archive g d home with
  | none => rfl
  | some a =>
    have kept := restoring.kept archived
    rw [bare] at kept
    cases kept

-- Nor is there anything of a file that does not stand there.
theorem copies_bare (restoring : Restoring runner k) (bare : w.disk.item? (metadataPlace home) = none)
    (absent : w.disk.item? (home ++ way) = none) : ∀ v ∈ copies k home w way, v = none := by
  have archived : k.archive w.git w.disk home = none := archive_bare restoring bare
  have file : workingTree w.disk home way = none := by
    unfold workingTree
    rw [absent]
    split <;> rfl
  intro v member
  simp only [copies, Keeping.copies, Keeping.index, Keeping.tree, archived, file, List.mem_cons, List.not_mem_nil,
    or_false] at member
  rcases member with rfl | rfl | rfl <;> rfl

theorem fresh_confined (restoring : Restoring runner k) (sound : w.disk.Sound) (fresh : w.disk.item? home = none) :
    Confined k l home w := by
  intro way v member there
  rw [copies_bare restoring (absent_inside sound fresh) (absent_inside sound fresh) v member] at there
  cases there

-- A source that is read before its project has a directory does not lie in there.
theorem source_outside {text : String} (sound : w.disk.Sound) (apart : Apart home w)
    (fresh : w.disk.item? home = none) (read : textAt (opened source w).disk source = .ok text) :
    ¬home <+: source.place := by
  intro inside
  have absent : (opened source w).disk.item? source.place = none := by
    obtain ⟨way, ends⟩ := inside
    unfold opened
    rw [(hear_beside apart).inside _ ⟨way, ends⟩, ← ends]
    exact absent_inside sound fresh
  unfold textAt at read
  rw [DiskAction.run_read] at read
  cases located : (opened source w).disk.locate source with
  | error cause =>
    rw [located] at read
    cases read
  | ok place =>
    rw [located] at read
    dsimp only at read
    rw [Disk.locate_place located, absent] at read
    cases read

theorem Rounds.opens (rounds : Rounds e runner parse file asked source w texts w') :
    ∃ text, textAt (opened source w).disk source = .ok text := by
  induction rounds with
  | first read _ => exact ⟨_, read⟩
  | again _ _ _ _ ih => exact ih

-- After runs on a source that changed in between, its project is made of the project file, the source and the file to
-- read first, and of the file for the using directives where any of the texts had one, be it an early one.
theorem layout_exact (restoring : Restoring runner k)
    (configured : ∀ p, e.configuration.output = some p → p.isAbsolute = true)
    (source_is : source = file.resolve e.here) (directory_is : directory = (e.outputOf file asked).join source.stem)
    (fits : Fits (e.leeway source directory (e.possibleNames source)) home)
    (printed : ∀ way, (directory.join (e.configuration.project.globalUsings ++ source.suffix)).place = home ++ way →
      Blank.isBlankText (k.print way).toList = false)
    (apart : ∀ text, ∀ d ∈ (parse text).descriptorComments, ∀ n ∈ (parse text).usings, n.place ≠ d.place)
    (sound : w.disk.Sound) (fresh : w.disk.item? home = none) (away : Apart home w)
    (rounds : Rounds e runner parse file asked source w texts w') (way : Place) :
    (workingTree w'.disk home way).isSome = true ↔
      (∃ name ∈ [e.projectName source, source.name, Scaffold.readmeName],
        (directory.join name).place = home ++ way) ∨
      ((directory.join (e.configuration.project.globalUsings ++ source.suffix)).place = home ++ way ∧
        ∃ text ∈ texts, (parse text).usings ≠ []) := by
  obtain ⟨_, first⟩ := rounds.opens
  have outside := source_outside sound away fresh first
  constructor
  · intro there
    have possible : ∀ name ∈ texts.flatMap fun text => e.artifactNames source (parse text),
        name ∈ e.possibleNames source := by
      intro name listed
      obtain ⟨text, _, named⟩ := List.mem_flatMap.mp listed
      exact artifactNames_possible named
    have own : Fits (e.leeway source directory (texts.flatMap fun text => e.artifactNames source (parse text))) home :=
      ⟨fits.named, fits.through, fun name listed => fits.inside name (possible name listed)⟩
    obtain ⟨_, confined⟩ := rounds.confined restoring source_is directory_is own outside ⟨sound, away⟩
      (fresh_confined restoring sound fresh) fun text member name named => List.mem_flatMap.mpr ⟨text, member, named⟩
    obtain ⟨name, listed, place⟩ := confined way _ List.mem_cons_self there
    obtain ⟨text, member, named⟩ := List.mem_flatMap.mp listed
    rcases mem_artifactNames.mp named with always | ⟨rfl, used⟩
    · exact .inl ⟨name, always, place⟩
    · exact .inr ⟨place, text, member, used⟩
  · obtain ⟨_, ⟨last, _, written⟩, kept⟩ :=
      rounds.kept restoring configured source_is directory_is fits apart outside ⟨sound, away⟩
    rintro (⟨name, always, place⟩ | ⟨place, text, member, used⟩)
    · exact written name (mem_artifactNames.mpr (.inl always)) way place
    · exact kept text member _ (mem_artifactNames.mpr (.inr ⟨rfl, used⟩)) way place (printed way place) _
        List.mem_cons_self

/-! ### A source that loses its directive -/

def plainText : String := "/// <Project Sdk=\"A\" />\nclass Tools { }\n"

-- The source is written anew.
def rewritten (w : World Memory) : World Memory :=
  { w with disk := w.disk.put toolSource.place (.file plainText.toUTF8) }

-- Two runs, the first of them on the text with the directive.
theorem tool_rounds : ∃ w', Rounds atBench Memory.runner Source.Unit.ofString ⟨.here, ["Tool.cs"]⟩ none toolSource
    (benchWith toolText []) [toolText, plainText] w' := by
  obtain ⟨middle, ran, located, noDirectory, parent, reread, w', again⟩ : ∃ middle,
      atBench.toolRun.run Memory.runner (benchWith toolText [])
        = (.ok (.committed ⟨"2", "Created AdHoc Project"⟩), middle) ∧
      middle.disk.locate toolSource = .ok toolSource.place ∧
      middle.disk.item? toolSource.place ≠ some .directory ∧
      middle.disk.item? toolSource.place.dropLast = some .directory ∧
      textAt (opened toolSource (rewritten middle)).disk toolSource = .ok plainText ∧
      ∃ w', atBench.toolRun.run Memory.runner (rewritten middle)
        = (.ok (.committed ⟨"3", "Created AdHoc Project"⟩), w') := by
    have facts : (atBench.toolRun.run Memory.runner (benchWith toolText [])).1
          = .ok (.committed ⟨"2", "Created AdHoc Project"⟩) ∧
        (atBench.toolRun.run Memory.runner (benchWith toolText [])).2.disk.locate toolSource = .ok toolSource.place ∧
        (atBench.toolRun.run Memory.runner (benchWith toolText [])).2.disk.item? toolSource.place ≠ some .directory ∧
        (atBench.toolRun.run Memory.runner (benchWith toolText [])).2.disk.item? toolSource.place.dropLast
          = some .directory ∧
        textAt (opened toolSource (rewritten (atBench.toolRun.run Memory.runner (benchWith toolText [])).2)).disk
          toolSource = .ok plainText ∧
        (atBench.toolRun.run Memory.runner (rewritten (atBench.toolRun.run Memory.runner (benchWith toolText [])).2)).1
          = .ok (.committed ⟨"3", "Created AdHoc Project"⟩) := by
      decide +kernel
    obtain ⟨ran, located, noDirectory, parent, reread, again⟩ := facts
    exact ⟨_, ok_of_result ran, located, noDirectory, parent, reread, _, ok_of_result again⟩
  have read : textAt (opened toolSource (benchWith toolText [])).disk toolSource = .ok toolText := by decide +kernel
  have first : Rounds atBench Memory.runner Source.Unit.ofString ⟨.here, ["Tool.cs"]⟩ none toolSource
    (benchWith toolText []) [toolText] middle := .first read ran
  exact ⟨w', .again first (DiskAction.write_of_writable ⟨located, noDirectory, parent⟩) reread again⟩

-- The directive is gone from the source, but its file is still in the project.
theorem layout_exact_tool : ∃ w', Rounds atBench Memory.runner Source.Unit.ofString ⟨.here, ["Tool.cs"]⟩ none
      toolSource (benchWith toolText []) [toolText, plainText] w' ∧
    (Source.Unit.ofString plainText).usings = [] ∧
    ∀ way, (workingTree w'.disk toolHome way).isSome = true ↔
      (∃ name ∈ ["Tool.csproj", "Tool.cs", "README.md"], (Path.join ⟨.root, toolHome⟩ name).place = toolHome ++ way) ∨
      (Path.join ⟨.root, toolHome⟩ "GlobalUsings.cs").place = toolHome ++ way := by
  obtain ⟨w', rounds⟩ := tool_rounds
  have configured : ∀ p, atBench.configuration.output = some p → p.isAbsolute = true := by
    intro p on
    cases on
  have source_is : toolSource = Path.resolve ⟨.here, ["Tool.cs"]⟩ atBench.here := by decide
  have directory_is : (⟨.root, toolHome⟩ : Path)
      = (atBench.outputOf ⟨.here, ["Tool.cs"]⟩ none).join toolSource.stem := by decide
  have through : ∀ q ∈ (⟨.root, toolHome⟩ : Path).trail, ¬metadataPlace toolHome <+: q := by decide
  have plain : ∀ name ∈ atBench.possibleNames toolSource,
      (Path.join ⟨.root, toolHome⟩ name).place = toolHome ++ [name] ∧ [name].head? ≠ some metadataName := by decide
  have fits : Fits (atBench.leeway toolSource ⟨.root, toolHome⟩ (atBench.possibleNames toolSource)) toolHome :=
    ⟨rfl, through, fun name listed => ⟨[name], plain name listed⟩⟩
  have usings : (Path.join ⟨.root, toolHome⟩ (atBench.configuration.project.globalUsings ++ toolSource.suffix)).place
      = toolHome ++ ["GlobalUsings.cs"] := by decide
  have printed : ∀ way, (Path.join ⟨.root, toolHome⟩
        (atBench.configuration.project.globalUsings ++ toolSource.suffix)).place = toolHome ++ way →
      Blank.isBlankText (Memory.keeping.print way).toList = false := by
    intro way place
    rw [← List.append_cancel_left (usings.symm.trans place)]
    decide
  have sound : (benchWith toolText []).disk.Sound := Disk.sound_of_items (by decide +kernel)
  have fresh : (benchWith toolText []).disk.item? toolHome = none := by decide +kernel
  have away : Apart toolHome (benchWith toolText []) := by
    refine ⟨nofun, fun p on => ?_⟩
    obtain rfl : registryAtBench = p := Option.some.inj on
    exact ⟨by decide, by decide⟩
  have used : (Source.Unit.ofString toolText).usings ≠ [] := by decide +kernel
  have unused : (Source.Unit.ofString plainText).usings = [] := by decide +kernel
  have apart : ∀ text, ∀ d ∈ (Source.Unit.ofString text).descriptorComments,
      ∀ n ∈ (Source.Unit.ofString text).usings, n.place ≠ d.place := fun _ _ => directives_apart
  have names : [atBench.projectName toolSource, toolSource.name, Scaffold.readmeName]
      = ["Tool.csproj", "Tool.cs", "README.md"] := by decide
  have last : atBench.configuration.project.globalUsings ++ toolSource.suffix = "GlobalUsings.cs" := by decide
  refine ⟨w', rounds, unused, fun way => ?_⟩
  have layout := layout_exact Memory.restoring configured source_is directory_is fits printed apart sound fresh away
    rounds way
  have early : ∃ text ∈ [toolText, plainText], (Source.Unit.ofString text).usings ≠ [] :=
    ⟨toolText, List.mem_cons_self, used⟩
  rwa [and_iff_left early, names, last] at layout

end Expansion
end InlineProject
