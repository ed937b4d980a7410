import InlineProject.Proofs.ProjectLayout
/-!
Files that were in a directory before a project was made of it. They are kept by the run that makes it a repository,
and by all later runs up to one that discards what is not in the last commit.
-/

namespace InlineProject

open InlineProject.Action InlineProject.Git
open InlineProject.DiskAction (Grown OnWay)

namespace Expansion

variable {σ : Type} {runner : Runner σ} {e : Expansion} {l : Leeway} {source directory output file : Path}
  {w middle w' : World σ} {q : Place} {names : List String} {u : Source.Unit} {comment : Source.Node}
  {asked : Option Path} {parse : String → Source.Unit}

/-! ### Steps that discard nothing -/

-- What a step calls, and that it may be made where nothing is discarded unless it discards something itself.
theorem Step.mild (step : Step l runner w w') : ∃ late, w'.calls = late ++ w.calls ∧
    ((∀ c ∈ late, c.Tame) → Step (l.onwards l.names) runner w w') := by
  cases step with
  | hear n => exact ⟨[], hear_calls, fun _ => .hear n⟩
  | grow sought grown => exact ⟨[], rfl, fun _ => .grow sought grown⟩
  | write listed writable => exact ⟨[], rfl, fun _ => .write listed writable⟩
  | take listed inside => exact ⟨[_], rfl, fun _ => .take listed inside⟩
  | call here other _ =>
    exact ⟨[_], rfl, fun tame => .call here other (.inr (tame _ List.mem_cons_self))⟩
  | evict => exact ⟨[], rfl, fun _ => .evict⟩
  | enrol => exact ⟨[], rfl, fun _ => .enrol⟩
  | save path writable => exact ⟨[], rfl, fun _ => .save path writable⟩

-- The induction is on the row; the calls of its last step are the latest ones.
theorem steps_mild (steps : Steps l runner w w') : ∃ more, w'.calls = more ++ w.calls ∧
    ((∀ c ∈ more, c.Tame) → Steps (l.onwards l.names) runner w w') := by
  induction steps with
  | refl => exact ⟨[], rfl, fun _ => .refl⟩
  | tail _ step ih =>
    obtain ⟨early, called, before⟩ := ih
    obtain ⟨late, calling, last⟩ := step.mild
    refine ⟨late ++ early, ?_, fun tame => ?_⟩
    · rw [calling, called, List.append_assoc]
    · have mild := before fun c member => tame c (List.mem_append_right _ member)
      exact mild.tail (last fun c member => tame c (List.mem_append_left _ member))

-- Everything that was called between two worlds discards nothing.
def Discardless (w w' : World σ) : Prop := ∃ more, w'.calls = more ++ w.calls ∧ ∀ c ∈ more, c.Tame

theorem Discardless.steps (mild : Discardless w w') (steps : Steps l runner w w') :
    Steps (l.onwards l.names) runner w w' := by
  obtain ⟨more, called, tame⟩ := mild
  obtain ⟨all, calling, narrow⟩ := steps_mild steps
  obtain rfl : all = more := List.append_cancel_right (calling.symm.trans called)
  exact narrow tame

/-! ### Directories that are no repository yet -/

-- Nothing is where the program keeps what is its own, and the way to the registry does not lead there.
structure Unborn (directory : Path) (w : World σ) : Prop where
  fresh : w.disk.item? (metadataPlace directory.place) = none
  store : ∀ p, w.registry.path = some p → ¬OnWay p.parts (metadataPlace directory.place)

namespace Unborn

theorem grown {p : Path} {d : Disk} (unborn : Unborn directory w) (path : w.registry.path = some p)
    (grown : Grown (OnWay p.parent.parts) w.disk d) : d.item? (metadataPlace directory.place) = none := by
  rcases grown.entry (metadataPlace directory.place) with same | ⟨_, _, front, leads, ends⟩
  · rw [same, unborn.fresh]
  · exact absurd ⟨front, leads.trans p.parts.dropLast_prefix, ends⟩ (unborn.store p path)

theorem hear {n : Note} (unborn : Unborn directory w) : Unborn directory (Action.hear n w) := by
  refine ⟨?_, fun p path => unborn.store p (by rwa [hear_registry] at path)⟩
  rcases hear_cases (n := n) (w := w) with still | ⟨j, p, old, content, _, _, there, written⟩
  · rw [still]
    exact unborn.fresh
  · have other : metadataPlace directory.place ≠ p.place := fun same => by
      rw [← same, unborn.fresh] at there
      cases there
    rw [written, Disk.item?_put _ _ _ _ (Disk.inside_of_file there), if_neg other]
    exact unborn.fresh

end Unborn

-- However an action ends, there is still no repository.
abbrev Idle (runner : Runner σ) (directory : Path) (w : World σ) {α : Type} (a : Action σ α) : Prop :=
  Leads runner w (fun _ w' => Unborn directory w') (fun _ w' => Unborn directory w') a

theorem Walks.bindIdle {α β : Type} {good : α → Prop} {better : β → Prop} {a : Action σ α} {f : α → Action σ β}
    (walks : Walks l runner w good a) (idle : Idle runner directory w a)
    (rest : ∀ x middle, Unborn directory middle → good x → Walks l runner middle better (f x)) :
    Walks l runner w better (a >>= f) :=
  Leads.bind ((walks.and idle).mono (fun _ _ => id) fun _ _ => And.left)
    fun x middle ⟨⟨steps, fit⟩, unborn⟩ => Walks.after steps (rest x middle unborn fit)

theorem keep_idle {r : Registry} (unborn : Unborn directory w) (path : r.path = w.registry.path)
    (changed : r.changed = true) : Idle runner directory w (Registry.keep r) := by
  have done : (Registry.keep r).run runner w = _ := Registry.keep_run
  cases persisted : r.persist.run.run w.disk with
  | mk result d' =>
    rw [persisted] at done
    cases store : r.path with
    | none =>
      rw [Registry.persist_unstored store] at persisted
      cases persisted
      exact .of_run done ⟨unborn.fresh, fun p on => by rw [store] at on; cases on⟩
    | some p =>
      have elsewhere : ∀ p, r.path = some p → ¬OnWay p.parts (metadataPlace directory.place) := by
        rw [path]
        exact unborn.store
      rcases Registry.persist_cases store changed persisted with ⟨e, rfl, grown⟩ | ⟨rfl, above, grown, writable, rfl⟩
      · exact .of_failed done ⟨unborn.grown (path ▸ store) grown, elsewhere⟩
      · refine .of_run done ⟨?_, elsewhere⟩
        have other : metadataPlace directory.place ≠ p.place := by
          intro same
          refine elsewhere p store ?_
          rw [same]
          exact DiskAction.onWay_end
        change (above.put p.place _).item? _ = none
        rw [Disk.item?_put _ _ _ _ (DiskAction.writable_inside writable), if_neg other]
        exact unborn.grown (path ▸ store) grown

theorem evict_idle {name : String} (unborn : Unborn directory w) : Idle runner directory w (evict name) := by
  have releasing : Idle runner directory w (Registry.release name) := by
    unfold Registry.release
    refine .now ?_
    dsimp only
    split
    · rename_i removed
      refine .noted ?_
      refine Leads.bind (keep_idle unborn.hear ?_ (Registry.remove_changed removed)) fun _ _ still => .value still
      rw [Registry.remove_path, hear_registry]
    · exact .value unborn
  unfold evict Registry.find
  rw [bind_assoc]
  refine .now ?_
  rw [pure_bind]
  split
  · exact Leads.bind releasing fun _ _ still => .value still
  · exact .value unborn

theorem projectXml_idle (unborn : Unborn directory w) : Idle runner directory w (e.projectXml comment) := by
  unfold projectXml
  split
  · exact .failure unborn
  · split
    · exact .noted (.value unborn.hear)
    · exact .value unborn

theorem existsAt_unborn (unborn : Unborn directory w) :
    Leads runner w (fun there w' => there = false ∧ w' = w) (fun _ w' => w' = w)
      (Action.onDisk (Git.existsAt directory)) := by
  have looked : (Action.onDisk (Git.existsAt directory)).run runner w = _ := Scaffold.existsAt_run
  cases seen : w.disk.look (directory.join metadataName) with
  | error e =>
    rw [seen] at looked
    exact .of_failed looked rfl
  | ok item =>
    rw [seen] at looked
    cases item with
    | none => exact .of_run looked ⟨rfl, rfl⟩
    | some item =>
      obtain ⟨_, there⟩ := Disk.look_some seen
      rw [place_metadata, unborn.fresh] at there
      cases there

-- A directory that is no repository is made one, whatever is in it.
theorem prepare_unborn {s : Scaffold} (unborn : Unborn l.directory w) :
    Walks l runner w (fun r => r = ⟨l.directory⟩) (s.prepare l.directory) := by
  have looking : Leads runner w (fun _ w' => w' = w) (fun _ w' => w' = w)
      (Action.onDisk (DiskAction.pathExists l.directory)) := by
    have looked : (Action.onDisk (DiskAction.pathExists l.directory)).run runner w = _ := Scaffold.pathExists_run
    cases seen : w.disk.look l.directory <;> rw [seen] at looked
    · exact .of_failed looked rfl
    · exact .of_run looked rfl
  have still {w' : World σ} (same : w' = w) : Steps l runner w w' := by
    rw [same]
  unfold Scaffold.prepare
  refine Leads.bind (looking.mono (fun _ _ => id) fun _ _ => still) fun there middle same => ?_
  subst same
  cases there with
  | false => exact Walks.growing.bind fun _ _ _ => .noted fun _ => Repository.create_walks
  | true =>
    refine Leads.bind ((existsAt_unborn unborn).mono (fun _ _ => id) fun _ _ => still) ?_
    rintro _ _ ⟨rfl, rfl⟩
    exact Walks.noted fun _ => Repository.create_walks

theorem build_unborn (unborn : Unborn directory w) (lists : e.Lists source u names) {xml : String} :
    Walks ((e.leeway source directory names).onwards names) runner w (fun _ => True)
      (e.build source directory xml u) := by
  unfold build
  refine Walks.bind (prepare_unborn unborn) fun r _ same => ?_
  subst same
  exact fill_walks lists

theorem expandComment_unborn (unborn : Unborn (output.join source.stem) w) (lists : e.Lists source u names) :
    Walks ((e.leeway source (output.join source.stem) names).onwards names) runner w (fun _ => True)
      (e.expandComment source output u comment) := by
  unfold expandComment
  dsimp only
  refine projectXml_walks.bindIdle (projectXml_idle unborn) fun xml _ unborn _ => ?_
  split
  · exact .noted fun _ => .value trivial
  · refine Leads.noted (Walks.after (Step.hear _).steps ?_)
    refine Walks.bindIdle evict_walks (evict_idle unborn.hear) fun _ _ unborn _ => ?_
    exact build_unborn unborn lists.without

/-! ### Runs -/

-- No failure that is passed over cuts the expansion of the first comment short, if there is a comment.
def Uncut (e : Expansion) (runner : Runner σ) (parse : String → Source.Unit) (source output : Path) (w : World σ) :
    Prop :=
  ∀ text d rest f, textAt w.disk source = .ok text → (parse text).descriptorComments = d :: rest →
    f.isTransient = true → ((e.expandComment source output (parse text) d).run runner w).1 ≠ .error f

-- An expansion that is not cut short has dealt with its comment, or has ended the run.
theorem processComment_uncut {d : Source.Node}
    (walks : Walks l runner w (fun _ => True) (e.expandComment source output u d))
    (uncut : ∀ f, f.isTransient = true → ((e.expandComment source output u d).run runner w).1 ≠ .error f) :
    Walks l runner w (fun o => o.handled = true) (e.processComment source output u d) := by
  cases expanded : (e.expandComment source output u d).run runner w with
  | mk result middle =>
    have tried : (e.processComment source output u d).run runner w = _ := run_tryCatch _ _
    rw [expanded] at tried uncut
    cases result with
    | ok o => exact .of_run tried ⟨(walks.well expanded).1, expandComment_handled expanded⟩
    | error f =>
      have lasting : f.isTransient = false := Bool.eq_false_of_not_eq_true fun transient => uncut f transient rfl
      dsimp only at tried
      rw [lasting, if_neg Bool.false_ne_true] at tried
      exact .of_failed tried (walks.failed expanded)

-- A run that makes a repository of a directory discards nothing in it: there is no second comment to be expanded,
-- which would find the repository of the first.
theorem adopting_walks (source_is : source = file.resolve e.here)
    (directory_is : directory = (e.outputOf file asked).join source.stem) (unborn : Unborn directory w)
    (uncut : e.Uncut runner parse source (e.outputOf file asked) (opened source w))
    (lists : ∀ text, textAt (opened source w).disk source = .ok text → e.Lists source (parse text) names) :
    Walks ((e.leeway source directory names).onwards names) runner w (fun _ => True)
      (e.processFileBy parse file asked) := by
  rw [directory_is] at unborn ⊢
  refine processFileBy_walks_of source_is fun text read => ?_
  unfold Descriptor.extract
  cases comments : (parse text).descriptorComments with
  | nil => exact .value trivial
  | cons d rest =>
    have dealt := processComment_uncut (expandComment_unborn unborn.hear (lists text read)) fun f =>
      uncut text d rest f read comments
    unfold Descriptor.firstHandled
    refine dealt.bind fun o _ handled => ?_
    rw [if_pos handled]
    exact .value trivial

-- Runs on one source into one directory, one after another. Each of them makes a repository of the directory or
-- discards nothing in it, and has other files to write than the one that is looked at. In between anything may
-- happen but to that file.
inductive Adoption (runner : Runner σ) (source directory : Path) (q : Place) : World σ → World σ → Prop where
  | start {w : World σ} : Adoption runner source directory q w w
  | run {e : Expansion} {parse : String → Source.Unit} {file : Path} {asked : Option Path} {w middle w' : World σ}
      {result : Except Failure Outcome} (before : Adoption runner source directory q w middle)
      (source_is : source = file.resolve e.here) (directory_is : directory = (e.outputOf file asked).join source.stem)
      (other : ∀ text, textAt (opened source middle).disk source = .ok text →
        ∀ name ∈ e.artifactNames source (parse text), q ≠ (directory.join name).place)
      (mild : (Unborn directory middle ∧ e.Uncut runner parse source (e.outputOf file asked) (opened source middle)) ∨
        Discardless middle w')
      (ran : (e.processFileBy parse file asked).run runner middle = (result, w')) :
      Adoption runner source directory q w w'
  | between {w middle w' : World σ} (before : Adoption runner source directory q w middle)
      (outlets : SameOutlets middle w') (same : w'.disk.file? q = middle.disk.file? q) :
      Adoption runner source directory q w w'

-- One run of them.
theorem run_mild {result : Except Failure Outcome} (source_is : source = file.resolve e.here)
    (directory_is : directory = (e.outputOf file asked).join source.stem)
    (lists : ∀ text, textAt (opened source w).disk source = .ok text → e.Lists source (parse text) names)
    (mild : (Unborn directory w ∧ e.Uncut runner parse source (e.outputOf file asked) (opened source w)) ∨
      Discardless w w')
    (ran : (e.processFileBy parse file asked).run runner w = (result, w')) :
    Steps ((e.leeway source directory names).onwards names) runner w w' := by
  have ended {l : Leeway} (walks : Walks l runner w (fun _ => True) (e.processFileBy parse file asked)) :
      Steps l runner w w' := by
    cases result with
    | ok o => exact (walks.well ran).1
    | error f => exact walks.failed ran
  rcases mild with ⟨unborn, uncut⟩ | discardless
  · exact ended (adopting_walks source_is directory_is unborn uncut lists)
  · exact discardless.steps (ended (processFileBy_walks source_is directory_is lists))

-- What was in the directory and is no file of the project is kept.
theorem adopted_files_kept (left : Leaves runner directory q) (silent : ¬w.Outlet q)
    (adoption : Adoption runner source directory q w w') : w'.disk.file? q = w.disk.file? q := by
  suffices held : SameOutlets w w' ∧ w'.disk.file? q = w.disk.file? q from held.2
  induction adoption with
  | start => exact ⟨.refl, rfl⟩
  | between _ outlets same ih =>
    obtain ⟨before, kept⟩ := ih silent
    exact ⟨before.trans outlets, same.trans kept⟩
  | @run e parse file asked _ middle _ _ _ source_is directory_is other mild ran ih =>
    obtain ⟨before, kept⟩ := ih silent
    -- the names of the files depend on the text that the run reads
    obtain ⟨names, lists, elsewhere⟩ : ∃ names,
        (∀ text, textAt (opened source middle).disk source = .ok text → e.Lists source (parse text) names) ∧
        ∀ name ∈ names, q ≠ (directory.join name).place := by
      cases read : textAt (opened source middle).disk source with
      | error reason => exact ⟨[], nofun, nofun⟩
      | ok text =>
        refine ⟨e.artifactNames source (parse text), fun again found => ?_, other text read⟩
        rw [← Except.ok.inj found]
        exact lists_artifacts fun _ => id
    have touched := steps_touched rfl (run_mild source_is directory_is lists mild ran)
    refine ⟨before.trans touched.outlets, (touched.files q ?_ ?_).trans kept⟩
    · rintro (⟨name, listed, same⟩ | loose)
      · exact elsewhere name listed same
      · exact loose left
    · rwa [before.outlet]

/-! ### A directory with a file of its own -/

def notesPlace : Place := toolHome ++ ["notes.txt"]

-- Before the first run there is a directory with notes, and no repository.
def notesBench : World Memory :=
  benchWith toolText [(toolHome, .directory), (notesPlace, .file "mine\n".toUTF8)]

theorem notes_unborn : Unborn ⟨.root, toolHome⟩ notesBench := by
  refine ⟨by decide +kernel, fun p path => ?_⟩
  obtain rfl : registryAtBench = p := Option.some.inj path
  rintro ⟨front, leads, ends⟩
  have elsewhere : ∀ front ∈ registryAtBench.parts.inits, metadataPlace toolHome ≠ Path.endFrom [] front := by decide
  exact elsewhere front ((List.mem_inits _ _).mpr leads) ends

theorem notes_apart {text : String} {name : String}
    (listed : name ∈ atBench.artifactNames toolSource (Source.Unit.ofString text)) :
    notesPlace ≠ (Path.join ⟨.root, toolHome⟩ name).place := by
  have possible : ∀ name ∈ atBench.possibleNames toolSource,
      notesPlace ≠ (Path.join ⟨.root, toolHome⟩ name).place := by decide
  exact possible name (artifactNames_possible listed)

theorem notes_uncut : atBench.Uncut Memory.runner Source.Unit.ofString toolSource
    (atBench.outputOf ⟨.here, ["Tool.cs"]⟩ none) (opened toolSource notesBench) := by
  have output_is : atBench.outputOf ⟨.here, ["Tool.cs"]⟩ none = ⟨.root, ["work"]⟩ := by decide
  have expanded : ((atBench.expandComment toolSource ⟨.root, ["work"]⟩ (Source.Unit.ofString toolText)
      toolComment).run Memory.runner (opened toolSource notesBench)).1
        = .ok (.committed ⟨"2", "Created AdHoc Project"⟩) := by decide +kernel
  have stored : textAt (opened toolSource notesBench).disk toolSource = .ok toolText := by decide +kernel
  have comments : (Source.Unit.ofString toolText).descriptorComments = [toolComment] := by decide +kernel
  intro text d rest f read first _ failed
  obtain rfl := Except.ok.inj (stored.symm.trans read)
  obtain ⟨rfl, _⟩ := List.cons.inj (comments.symm.trans first)
  rw [output_is, expanded] at failed
  cases failed

-- The first run keeps the notes.
theorem adopted_files_kept_notes : ∃ w', atBench.toolRun.run Memory.runner notesBench
      = (.ok (.committed ⟨"2", "Created AdHoc Project"⟩), w') ∧
    w'.disk.file? notesPlace = some "mine\n".toUTF8 := by
  have ended : (atBench.toolRun.run Memory.runner notesBench).1
      = .ok (.committed ⟨"2", "Created AdHoc Project"⟩) := by decide +kernel
  obtain ⟨w', ran⟩ : ∃ w', atBench.toolRun.run Memory.runner notesBench
      = (.ok (.committed ⟨"2", "Created AdHoc Project"⟩), w') := ⟨_, ok_of_result ended⟩
  have left : Leaves Memory.runner ⟨.root, toolHome⟩ notesPlace :=
    Restoring.leaves Memory.restoring rfl (by decide)
  have silent : ¬notesBench.Outlet notesPlace := by
    rintro (⟨j, _, heard, _⟩ | ⟨p, path, same⟩)
    · cases heard
    · obtain rfl : registryAtBench = p := Option.some.inj path
      exact absurd same (by decide)
  have source_is : toolSource = Path.resolve ⟨.here, ["Tool.cs"]⟩ atBench.here := by decide
  have directory_is : (⟨.root, toolHome⟩ : Path)
      = (atBench.outputOf ⟨.here, ["Tool.cs"]⟩ none).join toolSource.stem := by decide
  have adoption : Adoption Memory.runner toolSource ⟨.root, toolHome⟩ notesPlace notesBench w' :=
    .run .start source_is directory_is (fun _ _ _ listed => notes_apart listed) (.inl ⟨notes_unborn, notes_uncut⟩) ran
  have start : notesBench.disk.file? notesPlace = some "mine\n".toUTF8 := by decide +kernel
  exact ⟨w', ran, (adopted_files_kept left silent adoption).trans start⟩

-- The second run finds the notes among what is not in the last commit, and they are gone.
theorem adopted_files_discarded :
    Lawful Memory.runner Memory.keeping ∧
    notesBench.disk.item? toolHome = some .directory ∧
    notesBench.disk.item? (metadataPlace toolHome) = none ∧
    (∀ name ∈ atBench.possibleNames toolSource, notesPlace ≠ (Path.join ⟨.root, toolHome⟩ name).place) ∧
    notesBench.disk.file? notesPlace = some "mine\n".toUTF8 ∧
    ∃ w' ended, atBench.toolRun.run Memory.runner notesBench
        = (.ok (.committed ⟨"2", "Created AdHoc Project"⟩), w') ∧
      w'.disk.file? notesPlace = some "mine\n".toUTF8 ∧
      atBench.toolRun.run Memory.runner w' = (.ok (.committed ⟨"2", "Created AdHoc Project"⟩), ended) ∧
      ended.disk.file? notesPlace = none := by
  have facts : (atBench.toolRun.run Memory.runner notesBench).1 = .ok (.committed ⟨"2", "Created AdHoc Project"⟩) ∧
      (atBench.toolRun.run Memory.runner notesBench).2.disk.file? notesPlace = some "mine\n".toUTF8 ∧
      (atBench.toolRun.run Memory.runner (atBench.toolRun.run Memory.runner notesBench).2).1
        = .ok (.committed ⟨"2", "Created AdHoc Project"⟩) ∧
      (atBench.toolRun.run Memory.runner (atBench.toolRun.run Memory.runner notesBench).2).2.disk.file? notesPlace
        = none := by
    decide +kernel
  obtain ⟨first, kept, second, gone⟩ := facts
  exact ⟨Memory.lawful, by decide +kernel, by decide +kernel, by decide, by decide +kernel, _, _, ok_of_result first, kept,
    ok_of_result second, gone⟩

end Expansion
end InlineProject
