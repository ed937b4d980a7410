import InlineProject.Proofs.AdoptedFiles
import InlineProject.Proofs.FailedRun
import InlineProject.Proofs.InterruptedRuns
import InlineProject.Proofs.PromptProgram
/-!
A run after runs that were interrupted. Where they have left no repository, one that has a commit or one in which there
is nothing yet, it ends in a commit of all the files of the project. There is one other thing that they can leave behind,
a repository without a commit in a directory with files, and from that no run gets away.
-/

namespace InlineProject.Expansion

open InlineProject.Action InlineProject.Git
open InlineProject.DiskAction (makeDirectories_absent)

variable {σ : Type} {runner : Runner σ} {k : Keeping σ} {accepted : String → Identity → Prop} {e : Expansion}
  {source output directory file : Path} {home way : Place} {w w' : World σ} {names : List String} {name xml : String}
  {a b : Archive} {u : Source.Unit} {d : Source.Node} {asked : Option Path}

/-! ### What stands in the way -/

-- A repository without a commit, in which something has been taken in or stands.
def Stuck (k : Keeping σ) (home : Place) (w : World σ) : Prop :=
  ∃ a, k.archive w.git w.disk home = some a ∧ a.commits = [] ∧
    (a.index ≠ .empty ∨ workingTree w.disk home ≠ .empty)

theorem tree_unborn (unborn : a.commits = []) : a.tree = .empty := by
  unfold Archive.tree
  rw [unborn]
  rfl

-- Whatever is there differs from the last commit where there is none.
theorem unborn_clean (unborn : a.commits = []) {t : Tree} :
    (a.tree = a.index ∧ a.index = t) ↔ ¬(a.index ≠ .empty ∨ t ≠ .empty) := by
  rw [tree_unborn unborn, not_or, not_not, not_not]
  constructor
  · rintro ⟨index, rfl⟩
    exact ⟨index.symm, index.symm⟩
  · rintro ⟨index, rfl⟩
    exact ⟨index.symm, index⟩

theorem stuck_beside (restoring : Restoring runner k) (beside : Beside home w w') : Stuck k home w' ↔ Stuck k home w := by
  unfold Stuck
  rw [beside.git, workingTree_congr fun way _ => beside.inside _ (List.prefix_append home way),
    restoring.same fun q own => beside.inside q (metadata_inside.trans own)]

theorem Born.unstuck (born : Born k home w) : ¬Stuck k home w := by
  obtain ⟨a, archived, some⟩ := born
  rintro ⟨b, archived', none, _⟩
  rw [archived] at archived'
  exact some (Option.some.inj archived' ▸ none)

theorem Sane.stands (sane : Sane k directory names w) (archived : k.archive w.git w.disk directory.place = some a) :
    Stands k directory directory.place w.git w.disk a := ⟨sane.sound, sane.located, archived⟩

/-! ### The directory is made ready -/

section

variable {s : Scaffold}

-- Where there is no repository one is made, with its first commit.
theorem create_answers (lawful : Lawful runner k) (prompt : Prompt runner k accepted)
    (direct : Direct directory.place directory) (sane : Sane k directory names w)
    (there : w.disk.item? directory.place = some .directory)
    (fresh : w.disk.item? (metadataPlace directory.place) = none) (taken : accepted s.initialMessage s.identity)
    {message : String} : ∃ w', (s.create directory).run runner (hear ⟨.info, Scaffold.part, message⟩ w)
      = (.ok ⟨directory⟩, w') := by
  have beside := hear_beside (n := ⟨.info, Scaffold.part, message⟩) sane.apart
  refine create_done lawful prompt direct (sane.apart.outlets beside.outlets) (beside.sound sane.sound)
    (Disk.locate_transfer beside.directories (fun _ _ => trivial) sane.located)
    ((beside.directories _ trivial).mpr there) ?_ taken
  rw [beside.inside _ metadata_inside]
  exact fresh

theorem prepare_missing (lawful : Lawful runner k) (restoring : Restoring runner k) (prompt : Prompt runner k accepted)
    (direct : Direct directory.place directory) (sane : Sane k directory names w)
    (absent : w.disk.item? directory.place = none) (taken : accepted s.initialMessage s.identity) :
    ∃ w', (s.prepare directory).run runner w = (.ok ⟨directory⟩, w') := by
  have deep := Disk.inside_of_absent absent
  have looked : w.disk.look directory = .ok none := by rw [Disk.look_located sane.located, absent]
  have ran : (onDisk (DiskAction.makeDirectories false directory)).run runner w
      = (.ok (), { w with disk := w.disk.put directory.place .directory }) := by
    rw [run_onDisk, makeDirectories_absent sane.located absent sane.above]
  have made : Sane k directory names { w with disk := w.disk.put directory.place .directory } :=
    sane.made restoring (DiskAction.grown_put rfl absent sane.above)
  have there : (w.disk.put directory.place .directory).item? directory.place = some .directory := by
    rw [Disk.item?_put _ _ _ _ deep, if_pos rfl]
  have fresh : (w.disk.put directory.place .directory).item? (metadataPlace directory.place) = none := by
    have other : metadataPlace directory.place ≠ directory.place := (below_append (List.cons_ne_nil _ _)).2
    rw [Disk.item?_put _ _ _ _ deep, if_neg other]
    exact absent_inside sane.sound absent
  obtain ⟨w', created⟩ := create_answers lawful prompt direct made there fresh taken
  refine ⟨w', ?_⟩
  rw [Scaffold.prepare_run, looked]
  exact (bind_ok ran).trans ((bind_ok (run_note _ _ _)).trans created)

theorem prepare_bare (lawful : Lawful runner k) (prompt : Prompt runner k accepted)
    (direct : Direct directory.place directory) (sane : Sane k directory names w)
    (there : w.disk.item? directory.place = some .directory)
    (fresh : w.disk.item? (metadataPlace directory.place) = none) (taken : accepted s.initialMessage s.identity) :
    ∃ w', (s.prepare directory).run runner w = (.ok ⟨directory⟩, w') := by
  obtain ⟨present, seen⟩ := Scaffold.looks_there sane.located there
  obtain ⟨w', created⟩ := create_answers lawful prompt direct sane there fresh taken
  refine ⟨w', ?_⟩
  rw [Scaffold.prepare_run, present, seen, fresh]
  exact (bind_ok (run_note _ _ _)).trans created

theorem prepare_begun (lawful : Lawful runner k) (direct : Direct directory.place directory)
    (sane : Sane k directory names w) (free : ¬Stuck k directory.place w)
    (archived : k.archive w.git w.disk directory.place = some a) :
    ∃ w', (s.prepare directory).run runner w = (.ok ⟨directory⟩, w') := by
  have stands := sane.stands archived
  by_cases born : a.commits = []
  · have clean := (unborn_clean born).mpr fun some => free ⟨a, archived, born, some⟩
    obtain ⟨dirty, w', looked, _, _, _, told⟩ := isDirty_answers lawful direct stands
    obtain rfl := told.mpr clean
    refine ⟨w', ?_⟩
    rw [Scaffold.prepare_found sane.sound sane.located (lawful.kept archived), Scaffold.reuse, bind_ok looked]
    rfl
  · obtain ⟨w', prepared, _⟩ : ∃ w', (s.prepare directory).run runner w = (.ok ⟨directory⟩, w') ∧
        Restored k directory directory.place a w w' := Scaffold.prepare_answers lawful direct sane.apart stands born
    exact ⟨w', prepared⟩

-- Whatever there is, unless the repository is stuck.
theorem prepare_resumes (lawful : Lawful runner k) (restoring : Restoring runner k) (prompt : Prompt runner k accepted)
    (direct : Direct directory.place directory) (sane : Sane k directory names w)
    (free : ¬Stuck k directory.place w) (taken : accepted s.initialMessage s.identity) :
    ∃ w', (s.prepare directory).run runner w = (.ok ⟨directory⟩, w') := by
  cases there : w.disk.item? directory.place with
  | none => exact prepare_missing lawful restoring prompt direct sane there taken
  | some item =>
    cases item with
    | file content => exact absurd there (sane.noFile content)
    | directory =>
      cases kept : w.disk.item? (metadataPlace directory.place) with
      | none => exact prepare_bare lawful prompt direct sane there kept taken
      | some own =>
        obtain ⟨a, archived⟩ := Option.isSome_iff_exists.mp (sane.whole (by rw [kept]; rfl))
        exact prepare_begun lawful direct sane free archived

end

/-! ### The files of the project -/

theorem Sane.placed (sane : Sane k directory names w) (single : Single name) (listed : name ∈ names)
    (there : w.disk.item? directory.place = some .directory) :
    Placed directory.place w.disk (directory.join name) := by
  have led : wayTo directory.place (directory.join name) = [name] := wayTo_of_ends single.place
  have located : w.disk.locate (directory.join name) = .ok (directory.place ++ [name]) := by
    rw [single.join]
    exact Disk.locate_child sane.located there single.clean single.down single.short
  refine ⟨?_, ?_, ?_⟩ <;> rw [led]
  · exact single.place
  · exact single.free
  · exact ⟨located, sane.free name listed, by rwa [List.dropLast_concat]⟩

-- The contents of the files of a project.
def artifacts (e : Expansion) (source directory : Path) (u : Source.Unit) (xml : String) : Tree :=
  ((⟨[], .empty⟩ : Archive).stageAll directory.place directory (e.projectFiles source u xml)).index

theorem artifacts_staged {content : ByteArray} (written : e.artifacts source directory u xml way = some content) :
    (∃ f ∈ e.projectFiles source u xml, way = wayTo directory.place (directory.join f.1)) ∧
      (a.stageAll directory.place directory (e.projectFiles source u xml)).index way = some content := by
  by_cases listed : ∃ f ∈ e.projectFiles source u xml, way = wayTo directory.place (directory.join f.1)
  · exact ⟨listed, (stageAll_index (.inr listed)).trans written⟩
  · unfold artifacts at written
    rw [stageAll_other fun f member same => listed ⟨f, member, same⟩] at written
    cases written

theorem Opens.onto (opens : e.Opens directory home source u xml b) : e.Opens directory home source u xml a := by
  obtain ⟨content, indexed, read⟩ := opens
  exact ⟨content, (stageAll_index (.inr ⟨_, project_early, rfl⟩)).trans indexed, read⟩

section

variable (flat : ∀ name ∈ e.possibleNames source, Single name)
  (printed : ∀ name ∈ e.possibleNames source, Blank.isBlankText (k.print [name]).toList = false)

include flat printed

-- A listing tells of every file of a project.
theorem silent_told {t t' : Tree} (silent : k.Silent t t') {f : String × String}
    (member : f ∈ e.projectFiles source u xml) :
    t (wayTo directory.place (directory.join f.1)) = t' (wayTo directory.place (directory.join f.1)) := by
  have possible := projectFiles_possible member
  rw [wayTo_of_ends (flat _ possible).place]
  by_contra differs
  have blank := silent _ differs
  rw [printed _ possible] at blank
  cases blank

-- So where it tells of none there is a commit that has them.
theorem silent_born
    (silent : k.Silent (a.stageAll directory.place directory (e.projectFiles source u xml)).tree
      (a.stageAll directory.place directory (e.projectFiles source u xml)).index) :
    (a.stageAll directory.place directory (e.projectFiles source u xml)).commits ≠ [] := by
  intro unborn
  have member : (e.projectName source, xml) ∈ e.projectFiles source u xml := List.mem_append_left _ project_early
  have there : ((a.stageAll directory.place directory (e.projectFiles source u xml)).index
      (wayTo directory.place (directory.join (e.projectName source)))).isSome = true :=
    stageAll_isSome (.inr ⟨_, member, rfl⟩)
  rw [← silent_told flat printed silent member, tree_unborn unborn] at there
  cases there

end

/-! ### The run -/

section

variable (lawful : Lawful runner k) (restoring : Restoring runner k) (gentle : Gentle runner k)
  (prompt : Prompt runner k accepted)
  (flat : ∀ name ∈ e.possibleNames source, Single name)
  (printed : ∀ name ∈ e.possibleNames source, Blank.isBlankText (k.print [name]).toList = false)
  (founded : accepted e.configuration.commits.initialMessage e.configuration.commits.identity)
  (taken : accepted e.configuration.commits.message e.configuration.commits.identity)
  (direct : Direct directory.place directory)

include lawful restoring gentle prompt flat printed founded taken direct

-- The commit that a run ends in, and what it has of the project.
theorem build_resumes (absolute : directory.isAbsolute = true) (sane : Sane k directory (e.possibleNames source) w)
    (free : ¬Stuck k directory.place w) (opens : e.Opens directory directory.place source u xml b) :
    ∃ c w' a, (e.build source directory xml u).run runner w = (.ok (.committed c), w') ∧
      Holds k directory directory.place w' a ∧ a.last = some c ∧
      ∀ way content, e.artifacts source directory u xml way = some content → a.tree way = some content := by
  obtain ⟨ready, prepared⟩ := prepare_resumes (s := e.scaffold) lawful restoring prompt direct sane free founded
  obtain ⟨_, a, holds, _⟩ := Scaffold.prepare_holds lawful direct rfl sane.apart sane.sound prepared
  have walks : Walks (e.leeway source directory (e.possibleNames source)) runner w (fun r => r = ⟨directory⟩)
      (e.scaffold.prepare directory) := Scaffold.prepare_walks rfl
  obtain ⟨whole, _⟩ := steps_sane restoring gentle falters_itself flat direct sane (walks.well prepared).1
  have there := home_there lawful holds.stands
  obtain ⟨completed, filled, builds⟩ := build_completes lawful absolute prepared holds
    (fun f member => (flat _ (projectFiles_possible member)).direct direct)
    (fun f member => whole.placed (flat _ (projectFiles_possible member)) (projectFiles_possible member) there)
    whole.storable opens.onto
  obtain ⟨c, w', committed⟩ := commitStaged_done lawful prompt filled taken (silent_born flat printed)
  obtain ⟨a', held, _, last, index, silent, _⟩ := commitStaged_holds lawful filled committed
  refine ⟨c, w', a', builds c w' committed, held, last, fun way content written => ?_⟩
  obtain ⟨⟨f, member, rfl⟩, staged⟩ := artifacts_staged (a := a) written
  rw [silent_told flat printed silent member, index]
  exact staged

theorem expandComment_resumes (directory_is : directory = output.join source.stem)
    (absolute : directory.isAbsolute = true) (sane : Sane k directory (e.possibleNames source) w)
    (free : ¬Stuck k directory.place w)
    (described : e.normalizer.normalize (Descriptor.ofComment d.text) = .ok xml) (present : xml.isEmpty = false)
    (opens : e.Opens directory directory.place source (u.without [d]) xml b) :
    ∃ c w' a, (e.expandComment source output u d).run runner w = (.ok (.committed c), w') ∧
      Holds k directory directory.place w' a ∧ a.last = some c ∧
      ∀ way content, e.artifacts source directory (u.without [d]) xml way = some content →
        a.tree way = some content := by
  obtain ⟨read, reading, first⟩ : ∃ read, (e.projectXml d).run runner w = (.ok xml, read) ∧
      Beside directory.place w read := projectXml_answers sane.apart described
  have second := hear_beside (n := ⟨.info, part, "Expanding project directory: " ++ (output.join source.stem).toString⟩)
    (sane.apart.outlets first.outlets)
  have told := sane.beside restoring (first.trans second)
  obtain ⟨evicted, gone, third⟩ := evict_answers told.apart told.storable
  have all := (first.trans second).trans third
  obtain ⟨c, w', a, built, rest⟩ := build_resumes lawful restoring gentle prompt flat printed founded taken direct absolute
    (sane.beside restoring all) (mt (stuck_beside restoring all).mp free) opens
  rw [directory_is] at built
  exact ⟨c, w', a, expandComment_of_built reading present gone built, rest⟩

end

/-! ### A stuck repository -/

-- Where a run ends that cannot get on.
structure Jammed (k : Keeping σ) (directory : Path) (names : List String) (w : World σ) : Prop where
  sane : Sane k directory names w
  stuck : Stuck k directory.place w

theorem Jammed.beside (restoring : Restoring runner k) (jammed : Jammed k directory names w)
    (beside : Beside directory.place w w') : Jammed k directory names w' :=
  ⟨jammed.sane.beside restoring beside, (stuck_beside restoring beside).mpr jammed.stuck⟩

theorem Jammed.hear (restoring : Restoring runner k) (jammed : Jammed k directory names w) {n : Note} :
    Jammed k directory names (Action.hear n w) := jammed.beside restoring (hear_beside jammed.sane.apart)

theorem projectXml_jammed (restoring : Restoring runner k) (jammed : Jammed k directory names w) :
    Leads runner w (fun _ w' => Jammed k directory names w') (fun _ w' => Jammed k directory names w')
      (e.projectXml d) := by
  unfold projectXml
  split
  · exact .failure jammed
  · split
    · exact .noted (.value (jammed.hear restoring))
    · exact .value jammed

theorem evict_jammed (restoring : Restoring runner k) (jammed : Jammed k directory names w) :
    Leads runner w (fun _ w' => Jammed k directory names w') (fun _ w' => Jammed k directory names w')
      (evict name) := by
  obtain ⟨w', gone, beside⟩ : ∃ w', (evict name).run runner w = (.ok (), w') ∧ Beside directory.place w w' :=
    evict_answers jammed.sane.apart jammed.sane.storable
  exact .of_run gone (jammed.beside restoring beside)

-- There are changes, and they cannot be discarded.
theorem prepare_stuck (lawful : Lawful runner k) (prompt : Prompt runner k accepted)
    (direct : Direct directory.place directory) {s : Scaffold} (jammed : Jammed k directory names w) :
    Leads runner w (fun _ _ => False) (fun _ w' => Stuck k directory.place w') (s.prepare directory) := by
  obtain ⟨sane, a, archived, unborn, some⟩ := jammed
  obtain ⟨dirty, middle, looked, stands, quiet, outlets, told⟩ := isDirty_answers lawful direct (sane.stands archived)
  have changed : dirty = true := by
    by_contra clean
    exact (unborn_clean unborn).mp (told.mp (Bool.eq_false_of_not_eq_true clean)) some
  have beside := hear_beside (n := ⟨.info, Scaffold.part, "Resetting dirty working tree in " ++ directory.toString⟩)
    (sane.apart.outlets outlets)
  refine Leads.of_same (Scaffold.prepare_found sane.sound sane.located (lawful.kept archived)) ?_
  unfold Scaffold.reuse
  refine Leads.of_same (bind_ok looked) ?_
  rw [if_pos changed]
  refine Leads.noted (Leads.cut ?_)
  refine (restore_refused prompt (stands.beside lawful beside) unborn).mono (fun _ _ => id) fun _ w' left => ?_
  refine ⟨a, left.2, unborn, some.imp_right fun there => ?_⟩
  rw [left.1, workingTree_congr fun way _ => beside.inside _ (List.prefix_append _ way), quiet.workingTree]
  exact there

section

variable (lawful : Lawful runner k) (restoring : Restoring runner k) (gentle : Gentle runner k)
  (prompt : Prompt runner k accepted) (flat : ∀ name ∈ e.possibleNames source, Single name)
  (direct : Direct directory.place directory)

include lawful restoring gentle prompt flat direct

theorem build_jammed (jammed : Jammed k directory (e.possibleNames source) w) :
    Leads runner w (fun _ _ => False) (fun _ w' => Jammed k directory (e.possibleNames source) w')
      (e.build source directory xml u) := by
  have walks : Walks (e.leeway source directory (e.possibleNames source)) runner w (fun r => r = ⟨directory⟩)
      (e.scaffold.prepare directory) := Scaffold.prepare_walks rfl
  unfold build
  refine Leads.cut (((prepare_stuck lawful prompt direct jammed).and walks).mono (fun _ _ ends => ends.1) fun _ w' ends => ?_)
  exact ⟨(steps_sane restoring gentle falters_itself flat direct jammed.sane ends.2).1, ends.1⟩

theorem expandComment_jammed (directory_is : directory = output.join source.stem)
    (jammed : Jammed k directory (e.possibleNames source) w) :
    Leads runner w (fun o w' => o = .withoutProject ∧ Jammed k directory (e.possibleNames source) w')
      (fun _ w' => Jammed k directory (e.possibleNames source) w') (e.expandComment source output u d) := by
  unfold expandComment
  dsimp only
  refine (projectXml_jammed restoring jammed).bind fun xml read after => ?_
  split
  · exact .noted (.value ⟨rfl, after.hear restoring⟩)
  · refine .noted ((evict_jammed restoring (after.hear restoring)).bind fun _ evicted gone => ?_)
    rw [← directory_is]
    exact (build_jammed lawful restoring gentle prompt flat direct gone).mono (fun _ _ never => never.elim) fun _ _ => id

theorem firstHandled_jammed (directory_is : directory = output.join source.stem)
    (jammed : Jammed k directory (e.possibleNames source) w) {comments : List Source.Node} :
    Leads runner w (fun o w' => o.commit = none ∧ Jammed k directory (e.possibleNames source) w')
      (fun _ w' => Jammed k directory (e.possibleNames source) w')
      (Descriptor.firstHandled (e.processComment source output u) comments) := by
  induction comments generalizing w with
  | nil => exact .value ⟨rfl, jammed⟩
  | cons comment rest ih =>
    have one : Leads runner w (fun o w' => o.commit = none ∧ Jammed k directory (e.possibleNames source) w')
        (fun _ w' => Jammed k directory (e.possibleNames source) w') (e.processComment source output u comment) := by
      have expanded := expandComment_jammed (u := u) (d := comment) lawful restoring gentle prompt flat direct
        directory_is jammed
      unfold processComment
      refine Leads.tryCatch (expanded.mono (fun o _ ends => ⟨?_, ends.2⟩) fun _ _ => id) fun f middle after => ?_
      · rw [ends.1]
        rfl
      · split
        · exact .noted (.value ⟨rfl, after.hear restoring⟩)
        · exact .failure after
    unfold Descriptor.firstHandled
    refine one.bind fun outcome middle after => ?_
    split
    · exact .value after
    · exact ih after.2

-- No commit comes of a run, and it does not get the repository out of that state either.
theorem processFileBy_jammed {parse : String → Source.Unit} (source_is : source = file.resolve e.here)
    (directory_is : directory = (e.outputOf file asked).join source.stem)
    (jammed : Jammed k directory (e.possibleNames source) w) :
    Leads runner w (fun o w' => o.commit = none ∧ Jammed k directory (e.possibleNames source) w')
      (fun _ w' => Jammed k directory (e.possibleNames source) w') (e.processFileBy parse file asked) := by
  have stays {w' : World σ} (same : w' = w) : Jammed k directory (e.possibleNames source) w' := same ▸ jammed
  unfold processFileBy
  refine Leads.bind (resolve_leads.mono (fun _ _ => id) fun _ _ => stays) fun resolved middle ⟨unmoved, same⟩ => ?_
  rw [unmoved, same, ← source_is]
  have begun := jammed.hear restoring (n := ⟨.info, part, "Processing " ++ source.toString⟩)
  refine Leads.noted (.now ?_)
  split
  · exact .noted (.value ⟨rfl, begun.hear restoring⟩)
  · split
    · exact .noted (.value ⟨rfl, begun.hear restoring⟩)
    · unfold processUnit
      refine Leads.bind ((outputFor_leads source_is).mono (fun _ _ => id) fun _ w' still => ?_) fun _ _ ⟨unmoved, same⟩ => ?_
      · rw [still]
        exact begun
      rw [unmoved, same]
      refine Leads.bind (firstHandled_jammed lawful restoring gentle prompt flat direct directory_is begun)
        fun outcome expanded after => ?_
      split
      · exact .noted (.value ⟨after.1, after.2.hear restoring⟩)
      · exact .noted (.value ⟨after.1, after.2.hear restoring⟩)

end

/-! ### After runs that were interrupted -/

-- Runs come to nothing one after another; the next one that is left alone ends in a commit of all the files of the
-- project, unless a repository without a commit was left in a directory with files. Then it comes to nothing, and so
-- does every one after it. Where there was a commit to begin with there is no such thing.
theorem interrupted_exact {parse : String → Source.Unit} {text : String} {rest : List Source.Node} {c : Commit}
    {finished : World σ} (lawful : Lawful runner k) (restoring : Restoring runner k) (gentle : Gentle runner k)
    (prompt : Prompt runner k accepted)
    (configured : ∀ p, e.configuration.output = some p → p.isAbsolute = true)
    (founded : accepted e.configuration.commits.initialMessage e.configuration.commits.identity)
    (taken : accepted e.configuration.commits.message e.configuration.commits.identity)
    (source_is : source = file.resolve e.here) (output_is : output = e.outputOf file asked)
    (directory_is : directory = output.join source.stem) (direct : Direct directory.place directory)
    (flat : ∀ name ∈ e.possibleNames source, Single name)
    (printed : ∀ name ∈ e.possibleNames source, Blank.isBlankText (k.print [name]).toList = false)
    (sane : Sane k directory (e.possibleNames source) w)
    (read : textAt (opened source w).disk source = .ok text) (first : (parse text).descriptorComments = d :: rest)
    (unfailed : ∀ f, ((e.expandComment source output (parse text) d).run runner (opened source w)).1 ≠ .error f)
    (ran : (e.processFileBy parse file asked).run runner w = (.ok (.committed c), finished))
    (runs : Interrupted k runner e parse file asked directory.place w w')
    (readAgain : textAt (opened source w').disk source = .ok text) :
    (Born k directory.place w → ¬Stuck k directory.place w') ∧
    (¬Stuck k directory.place w' → ∃ xml made ended a,
      e.normalizer.normalize (Descriptor.ofComment d.text) = .ok xml ∧
      (e.processFileBy parse file asked).run runner w' = (.ok (.committed made), ended) ∧
      k.archive ended.git ended.disk directory.place = some a ∧ a.last = some made ∧
      ∀ way content, e.artifacts source directory ((parse text).without [d]) xml way = some content →
        a.tree way = some content) ∧
    (Stuck k directory.place w' → ∀ result ended, (e.processFileBy parse file asked).run runner w' = (result, ended) →
      (∀ made, result ≠ .ok (.committed made)) ∧ Stuck k directory.place ended) := by
  have whole_is : directory = (e.outputOf file asked).join source.stem := by rw [directory_is, output_is]
  obtain ⟨whole, born⟩ := interrupted_sane restoring gentle source_is whole_is flat direct sane runs
  refine ⟨fun start => (born start).unstuck, fun free => ?_, fun stuck result ended again => ?_⟩
  · have absolute : directory.isAbsolute = true := by
      rw [whole_is]
      exact outputOf_absolute configured
    rw [source_is, output_is] at unfailed
    rw [source_is] at read readAgain
    obtain ⟨expanded, resolved, present, placed, one, _⟩ := processFileBy_first read first unfailed ran rfl
    rw [← source_is, ← output_is] at one
    have straight : e.Straight source directory ((parse text).without [d]) :=
      ⟨direct, fun name listed => (flat name (artifactNames_possible listed)).direct direct⟩
    have opening := hear_beside (n := ⟨.info, part, "Processing " ++ source.toString⟩) sane.apart
    have reopening := hear_beside (n := ⟨.info, part, "Processing " ++ source.toString⟩) whole.apart
    rw [directory_is] at straight absolute
    obtain ⟨xml, _, described, some, settled⟩ := expandComment_settles lawful absolute straight
      (directory_is ▸ sane.apart.outlets opening.outlets) (opening.sound sane.sound) one
    rw [← directory_is] at absolute settled
    obtain ⟨made, ended, a, two, held, last, files⟩ := expandComment_resumes lawful restoring gentle prompt flat printed
      founded taken direct directory_is absolute (whole.beside restoring reopening)
      (mt (stuck_beside restoring reopening).mp free) described some settled.opens
    have closing := hear_beside (n := ⟨.info, part, "Processed " ++ source.toString⟩) held.apart
    refine ⟨xml, made, _, a, described, ?_, (held.beside lawful closing).stands.archived, last, files⟩
    rw [source_is, output_is] at two
    rw [source_is]
    exact processFileBy_of_first (resolve_again resolved) readAgain present (outputFor_again placed) first two
  · have ends : Leads runner w' (fun o w' => o.commit = none ∧ Jammed k directory (e.possibleNames source) w')
        (fun _ w' => Jammed k directory (e.possibleNames source) w') (e.processFileBy parse file asked) :=
      processFileBy_jammed lawful restoring gentle prompt flat direct source_is whole_is ⟨whole, stuck⟩
    cases result with
    | ok o =>
      obtain ⟨none, after⟩ := ends.well again
      refine ⟨fun made same => ?_, after.stuck⟩
      rw [Except.ok.inj same] at none
      cases none
    | error f => exact ⟨nofun, (ends.failed again).stuck⟩

/-! ### At the bench -/

-- A program that makes no commits.
def balking : Runner Memory := fun c g d =>
  if c.identity.isSome then (.failed (.code 1) none, g, d) else Memory.runner c g d

theorem balking_falters : Falters Memory.keeping Memory.runner balking := by
  refine falters_of_cases fun c g d => ?_
  unfold balking
  split
  · exact .inl rfl
  · exact .inr rfl

theorem halting_falters : Falters Memory.keeping Memory.runner halting := by
  refine falters_of_cases fun c g d => ?_
  unfold halting
  split
  · exact .inl rfl
  · exact .inr rfl

theorem stuck_of_shelf {w : World Memory} {s : Shelf} {content : ByteArray} (found : w.git.shelf? w.disk home = some s)
    (unborn : s.entries = []) (free : way.head? ≠ some metadataName)
    (there : w.disk.item? (home ++ way) = some (.file content)) : Stuck Memory.keeping home w := by
  refine ⟨s.archive, Memory.archive_of_shelf found, List.map_eq_nil_iff.mpr unborn, .inr fun none => ?_⟩
  have file := workingTree_exact.mpr ⟨free, there⟩
  rw [none] at file
  cases file

theorem born_of_shelf {w : World Memory} {s : Shelf} (found : w.git.shelf? w.disk home = some s)
    (born : s.entries ≠ []) : Born Memory.keeping home w :=
  ⟨s.archive, Memory.archive_of_shelf found, fun none => born (List.map_eq_nil_iff.mp none)⟩

-- At the bench the file of the registry is beside the source, and nothing of the project is there.
theorem bench_sane {more : List (Place × Item)}
    (items : ∀ entry ∈ (benchWith toolText more).disk.items,
      (benchWith toolText more).disk.item? entry.1.dropLast = some .directory)
    (store : (benchWith toolText more).disk.locate registryAtBench = .ok registryAtBench.place ∧
      (benchWith toolText more).disk.item? registryAtBench.place ≠ some .directory)
    (located : (benchWith toolText more).disk.locate ⟨.root, toolHome⟩ = .ok toolHome)
    (above : (benchWith toolText more).disk.item? ["work"] = some .directory)
    (home : (benchWith toolText more).disk.item? toolHome ∈ [none, some .directory])
    (bare : (benchWith toolText more).disk.item? (metadataPlace toolHome) = none)
    (lacks : ∀ name ∈ atBench.possibleNames toolSource,
      (benchWith toolText more).disk.item? (toolHome ++ [name]) = none) :
    Sane Memory.keeping ⟨.root, toolHome⟩ (atBench.possibleNames toolSource) (benchWith toolText more) := by
  refine sane_of_bare Memory.restoring (Disk.sound_of_items items) ⟨nofun, fun p on => ?_⟩ (fun p on => ?_) located above
    (fun content there => ?_) bare lacks
  · obtain rfl : registryAtBench = p := Option.some.inj on
    exact ⟨by decide, by decide⟩
  · obtain rfl : registryAtBench = p := Option.some.inj on
    exact ⟨store.1, store.2, above⟩
  · change (benchWith toolText more).disk.item? toolHome = _ at there
    rw [there] at home
    simp at home

theorem bench_names : ∀ name ∈ atBench.possibleNames toolSource,
    Single name ∧ Blank.isBlankText (Memory.keeping.print [name]).toList = false := by
  have facts : ∀ name ∈ atBench.possibleNames toolSource,
      (name ≠ "" ∧ name ≠ Path.hereName ∧ '/' ∉ name.toList) ∧ name ≠ metadataName ∧ name ≠ Path.parentName ∧
        '\x00' ∉ name.toList ∧ name.utf8ByteSize ≤ Disk.nameLimit ∧
        Blank.isBlankText (Shelf.print [name]).toList = false := by decide +kernel
  intro name listed
  obtain ⟨plain, own, down, clean, short, printed⟩ := facts name listed
  exact ⟨⟨plain, own, down, clean, short⟩, printed⟩

-- A run at the bench comes to nothing, where it would have ended in a commit.
def Stopped (other : Runner Memory) (w : World Memory) : Prop :=
  textAt (opened toolSource w).disk toolSource = .ok toolText ∧
    ((atBench.expandComment toolSource ⟨.root, ["work"]⟩ (Source.Unit.ofString toolText) toolComment).run Memory.runner
      (opened toolSource w)).1 = .ok (.committed ⟨"2", "Created AdHoc Project"⟩) ∧
    (atBench.toolRun.run Memory.runner w).1 = .ok (.committed ⟨"2", "Created AdHoc Project"⟩) ∧
    (atBench.toolRun.run other w).1 = .ok .nothing ∧
    textAt (opened toolSource (atBench.toolRun.run other w).2).disk toolSource = .ok toolText

theorem notes_stopped : Stopped balking notesBench := by
  unfold Stopped
  decide +kernel

theorem notes_stuck : Stuck Memory.keeping toolHome (atBench.toolRun.run balking notesBench).2 := by
  have facts : ((atBench.toolRun.run balking notesBench).2.git.shelf? (atBench.toolRun.run balking notesBench).2.disk
        toolHome).map (·.entries.isEmpty) = some true ∧
      (atBench.toolRun.run balking notesBench).2.disk.item? (toolHome ++ ["notes.txt"])
        = some (.file "mine\n".toUTF8) := by decide +kernel
  obtain ⟨s, found, unborn⟩ := Option.map_eq_some_iff.mp facts.1
  exact stuck_of_shelf found (List.isEmpty_iff.mp unborn) (by decide) facts.2

theorem tool_stopped : Stopped halting (benchWith toolText []) := by
  unfold Stopped
  decide +kernel

theorem tool_born : Born Memory.keeping toolHome (atBench.toolRun.run halting (benchWith toolText [])).2 := by
  have shelf : ((atBench.toolRun.run halting (benchWith toolText [])).2.git.shelf?
      (atBench.toolRun.run halting (benchWith toolText [])).2.disk toolHome).map (·.entries.isEmpty)
        = some false := by decide +kernel
  obtain ⟨s, found, born⟩ := Option.map_eq_some_iff.mp shelf
  refine born_of_shelf found fun none => ?_
  rw [none] at born
  cases born

-- In a directory with notes a repository was begun, and its first commit was not made: no run comes to a commit any
-- more. Where the run was stopped after that commit the next one gets through.
theorem interrupted_exact_notes :
    (∃ w', atBench.toolRun.run balking notesBench = (.ok .nothing, w') ∧
      ∀ result ended, atBench.toolRun.run Memory.runner w' = (result, ended) →
        (∀ made, result ≠ .ok (.committed made)) ∧ Stuck Memory.keeping toolHome ended) ∧
    ∃ w' xml made ended a, atBench.toolRun.run halting (benchWith toolText []) = (.ok .nothing, w') ∧
      atBench.normalizer.normalize (Descriptor.ofComment toolComment.text) = .ok xml ∧
      atBench.toolRun.run Memory.runner w' = (.ok (.committed made), ended) ∧
      Memory.keeping.archive ended.git ended.disk toolHome = some a ∧ a.last = some made ∧
      ∀ way content, atBench.artifacts toolSource ⟨.root, toolHome⟩
        ((Source.Unit.ofString toolText).without [toolComment]) xml way = some content → a.tree way = some content := by
  have configured : ∀ p, atBench.configuration.output = some p → p.isAbsolute = true := by
    intro p on
    cases on
  have source_is : toolSource = Path.resolve ⟨.here, ["Tool.cs"]⟩ atBench.here := by decide
  have output_is : (⟨.root, ["work"]⟩ : Path) = atBench.outputOf ⟨.here, ["Tool.cs"]⟩ none := by decide
  have directory_is : (⟨.root, toolHome⟩ : Path) = Path.join ⟨.root, ["work"]⟩ toolSource.stem := by decide
  have direct : Direct (⟨.root, toolHome⟩ : Path).place ⟨.root, toolHome⟩ := by decide
  have first : (Source.Unit.ofString toolText).descriptorComments = [toolComment] := by decide +kernel
  have settles {more : List (Place × Item)} {other : Runner Memory}
      (sane : Sane Memory.keeping ⟨.root, toolHome⟩ (atBench.possibleNames toolSource) (benchWith toolText more))
      (falters : Falters Memory.keeping Memory.runner other) (stopped : Stopped other (benchWith toolText more)) := by
    obtain ⟨read, expanded, ended, halted, readAgain⟩ := stopped
    exact interrupted_exact Memory.lawful Memory.restoring Memory.gentle Memory.prompt configured trivial trivial
      source_is output_is directory_is direct (fun name listed => (bench_names name listed).1)
      (fun name listed => (bench_names name listed).2) sane read first (fun f => by rw [expanded]; nofun)
      (ok_of_result ended) (.run .start falters (ok_of_result halted)) readAgain
  constructor
  · have sane : Sane Memory.keeping ⟨.root, toolHome⟩ (atBench.possibleNames toolSource) notesBench :=
      bench_sane (by decide +kernel) (by decide +kernel) (by decide +kernel) (by decide +kernel) (by decide +kernel)
        (by decide +kernel) (by decide +kernel)
    obtain ⟨_, _, _, halted, _⟩ := notes_stopped
    exact ⟨_, ok_of_result halted, (settles sane balking_falters notes_stopped).2.2 notes_stuck⟩
  · have sane : Sane Memory.keeping ⟨.root, toolHome⟩ (atBench.possibleNames toolSource) (benchWith toolText []) :=
      bench_sane (by decide +kernel) (by decide +kernel) (by decide +kernel) (by decide +kernel) (by decide +kernel)
        (by decide +kernel) (by decide +kernel)
    obtain ⟨_, _, _, halted, _⟩ := tool_stopped
    obtain ⟨xml, made, ended, a, described, again, kept⟩ :=
      (settles sane halting_falters tool_stopped).2.1 tool_born.unstuck
    exact ⟨_, xml, made, ended, a, ok_of_result halted, described, again, kept⟩

end InlineProject.Expansion
