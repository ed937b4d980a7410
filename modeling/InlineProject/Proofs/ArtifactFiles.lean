import InlineProject.Proofs.ProjectPlaces
import InlineProject.Proofs.RunSteps
/-!
The files of a project after a run that has committed it. They have been written one after another, and each of
them stands as it was written unless a later one was written to the same place.
-/

namespace InlineProject

open InlineProject.Action InlineProject.Git
open InlineProject.DiskAction (Writable write_parts)

namespace Expansion

variable {σ : Type} {runner : Runner σ} {e : Expansion} {l : Leeway} {source directory file : Path}
  {w middle w' : World σ} {name content xml : String} {files more : List (String × String)} {u : Source.Unit}
  {asked : Option Path} {c : Commit}

/-! ### What steps leave alone -/

theorem step_outlets (step : Step l runner w w') : SameOutlets w w' := by
  cases step with
  | hear n => exact .hear
  | grow _ _ => exact ⟨rfl, rfl⟩
  | write _ _ => exact ⟨rfl, rfl⟩
  | take _ _ => exact ⟨rfl, rfl⟩
  | call _ _ _ => exact ⟨rfl, rfl⟩
  | evict => exact ⟨rfl, Registry.remove_path⟩
  | enrol => exact ⟨rfl, rfl⟩
  | save _ _ => exact ⟨rfl, rfl⟩

theorem steps_outlets (steps : Steps l runner w w') : SameOutlets w w' :=
  steps.keeps (fun same step => same.trans (step_outlets step)) .refl

-- A program for version control that discards nothing leaves the file at a place as it is.
def Leaves (runner : Runner σ) (directory : Path) (q : Place) : Prop :=
  ∀ c g d, c.directory = directory → c.Tame → (runner c g d).2.2.file? q = d.file? q

-- Where files of some names may be written, or anything may happen.
def Loose (runner : Runner σ) (directory : Path) (names : List String) (q : Place) : Prop :=
  (∃ name ∈ names, q = (directory.join name).place) ∨ ¬Leaves runner directory q

theorem asked_loose {names : List String} {call : Call} (here : call.directory = directory)
    (tame : call.Tame) :
    Touched (Loose runner directory names) directory w (Leads.asked runner call w) := by
  refine ⟨⟨rfl, rfl⟩, fun q away _ => ?_, [call], rfl, fun c member => ?_⟩
  · exact not_not.mp (not_or.mp away).2 call _ _ here tame
  · rw [List.mem_singleton.mp member]
    exact here

theorem step_touched (settled : l.restores = false) (step : Step l runner w w') :
    Touched (Loose runner l.directory l.names) l.directory w w' := by
  cases step with
  | hear n => exact .hear
  | grow _ grown => exact .of_disk fun _ _ _ => grown.file?
  | write listed writable =>
    refine .of_disk fun q away _ => Disk.file?_put (DiskAction.writable_inside writable) fun same => away ?_
    exact .inl ⟨_, listed, same⟩
  | take _ _ => exact asked_loose rfl (Call.tame_of_add rfl)
  | call here _ tame => exact asked_loose here (tame.resolve_left (by rw [settled]; exact Bool.false_ne_true))
  | evict => exact ⟨⟨rfl, Registry.remove_path⟩, fun _ _ _ => rfl, [], rfl, nofun⟩
  | enrol => exact ⟨⟨rfl, rfl⟩, fun _ _ _ => rfl, [], rfl, nofun⟩
  | @save p path writable =>
    refine ⟨⟨rfl, rfl⟩, fun q _ silent => ?_, [], rfl, nofun⟩
    refine Disk.file?_put (DiskAction.writable_inside writable) fun same => silent ?_
    exact .inr ⟨p, path, same⟩

theorem steps_touched (settled : l.restores = false) (steps : Steps l runner w w') :
    Touched (Loose runner l.directory l.names) l.directory w w' :=
  steps.keeps (fun touched step => touched.trans (step_touched settled step)) .refl

/-! ### Files one after another -/

-- Files are written and taken in one after another, and no others in between.
inductive Fills (l : Leeway) (runner : Runner σ) : World σ → List (String × String) → World σ → Prop where
  | done {w w' : World σ} (steps : Steps (l.onwards []) runner w w') : Fills l runner w [] w'
  | write {w ready written w' : World σ} {name content : String} {files : List (String × String)}
      (steps : Steps (l.onwards []) runner w ready)
      (wrote : (Scaffold.writeStaged ⟨l.directory⟩ (l.directory.join name) content).run runner ready
        = (.ok (), written))
      (rest : Fills l runner written files w') : Fills l runner w ((name, content) :: files) w'

namespace Fills

theorem after (steps : Steps (l.onwards []) runner w middle) (fills : Fills l runner middle files w') :
    Fills l runner w files w' := by
  cases fills with
  | done later => exact .done (steps.trans later)
  | write later wrote rest => exact .write (steps.trans later) wrote rest

theorem append (first : Fills l runner w files middle) (second : Fills l runner middle more w') :
    Fills l runner w (files ++ more) w' := by
  induction first with
  | done steps => exact second.after steps
  | write steps wrote _ ih => exact .write steps wrote (ih second)

theorem followed (fills : Fills l runner w files middle) (later : Steps (l.onwards []) runner middle w') :
    Fills l runner w files w' := by
  have whole := fills.append (.done later)
  rwa [List.append_nil] at whole

theorem single (wrote : (Scaffold.writeStaged ⟨l.directory⟩ (l.directory.join name) content).run runner w
    = (.ok (), middle)) (later : Steps (l.onwards []) runner middle w') :
    Fills l runner w [(name, content)] w' := .write .refl wrote (.done later)

theorem steps {names : List String} (fills : Fills l runner w files w') (listed : ∀ f ∈ files, f.1 ∈ names) :
    Steps (l.onwards names) runner w w' := by
  have within : (l.onwards []).Within (l.onwards names) := ⟨rfl, rfl, rfl, nofun, id⟩
  induction fills with
  | done steps => exact steps.widen within
  | write steps wrote _ ih =>
    have named := listed _ List.mem_cons_self
    have staged := ((Scaffold.writeStaged_walks (l := l.onwards names) named).well wrote).1
    exact ((steps.widen within).trans staged).trans (ih fun f member => listed f (List.mem_cons_of_mem _ member))

theorem touched (fills : Fills l runner w files w') :
    Touched (Loose runner l.directory (files.map (·.1))) l.directory w w' := by
  have steps : Steps (l.onwards (files.map (·.1))) runner w w' := fills.steps fun _ => List.mem_map_of_mem
  exact steps_touched (l := l.onwards (files.map (·.1))) rfl steps

end Fills

-- What was written is there when it has been taken in.
theorem writeStaged_file (left : Leaves runner directory (directory.join name).place)
    (wrote : (Scaffold.writeStaged ⟨directory⟩ (directory.join name) content).run runner w = (.ok (), w')) :
    w'.disk.file? (directory.join name).place = some content.toUTF8 := by
  obtain ⟨place, writable, staged⟩ := Scaffold.writeStaged_parts wrote
  obtain rfl := Disk.locate_place writable.located
  have put : (w.disk.put (directory.join name).place (.file content.toUTF8)).file? (directory.join name).place
      = some content.toUTF8 := by
    unfold Disk.file?
    rw [Disk.item?_put _ _ _ _ (DiskAction.writable_inside writable), if_pos rfl]
  unfold Repository.stage at staged
  split at staged
  · rename_i p _
    obtain ⟨text, g', d', reply, rfl⟩ := command_parts staged
    have same := left ⟨program :: ["add", "--", p.toString], directory, none, false⟩ w.git
      (w.disk.put (directory.join name).place (.file content.toUTF8)) rfl (Call.tame_of_add rfl)
    rw [reply] at same
    exact same.trans put
  · cases staged

-- The file that was written last at a place stands.
theorem Fills.stands {front back : List (String × String)} {f : String × String}
    (fills : Fills l runner w files w') (split : files = front ++ f :: back)
    (left : ∀ f ∈ files, Leaves runner l.directory (l.directory.join f.1).place)
    (silent : ∀ f ∈ files, ¬w.Outlet (l.directory.join f.1).place)
    (last : ∀ g ∈ back, (l.directory.join g.1).place ≠ (l.directory.join f.1).place) :
    w'.disk.file? (l.directory.join f.1).place = some f.2.toUTF8 := by
  induction fills generalizing front with
  | done _ =>
    exact absurd split.symm (List.append_ne_nil_of_right_ne_nil _ (List.cons_ne_nil _ _))
  | @write w ready written w' name content files steps wrote rest ih =>
    have listed : name ∈ (l.onwards [name]).names := List.mem_cons_self
    have staged : Steps (l.onwards [name]) runner ready written :=
      ((Scaffold.writeStaged_walks listed).well wrote).1
    have outlets : SameOutlets w written :=
      (steps_touched rfl steps).outlets.trans (steps_touched rfl staged).outlets
    have silent' (g : String × String) (member : g ∈ files) :
        ¬written.Outlet (l.directory.join g.1).place := by
      rw [outlets.outlet]
      exact silent g (List.mem_cons_of_mem _ member)
    cases front with
    | cons first front =>
      obtain ⟨_, split⟩ := List.cons.inj split
      exact ih split (fun g member => left g (List.mem_cons_of_mem _ member)) silent'
    | nil =>
      obtain ⟨rfl, rfl⟩ := List.cons.inj split
      have placed := writeStaged_file (left _ List.mem_cons_self) wrote
      refine (rest.touched.files _ ?_ ?_).trans placed
      · rintro (⟨other, named, same⟩ | moved)
        · obtain ⟨g, member, rfl⟩ := List.mem_map.mp named
          exact last g member same.symm
        · exact moved (left _ List.mem_cons_self)
      · rw [outlets.outlet]
        exact silent _ List.mem_cons_self

-- Of the files at a place one is the last.
theorem exists_last (place : String × String → Place) {f : String × String} (member : f ∈ files) :
    ∃ front g back, files = front ++ g :: back ∧ place g = place f ∧ ∀ h ∈ back, place h ≠ place g := by
  obtain ⟨g, found⟩ : ∃ g, files.reverse.find? (fun g => place g = place f) = some g :=
    Option.isSome_iff_exists.mp (List.find?_isSome.mpr ⟨f, List.mem_reverse.mpr member, decide_eq_true rfl⟩)
  obtain ⟨here, back, front, split, others⟩ := List.find?_eq_some_iff_append.mp found
  have here := of_decide_eq_true here
  refine ⟨front.reverse, g, back.reverse, ?_, here, fun h later same => ?_⟩
  · rw [← List.reverse_reverse files, split, List.reverse_append, List.reverse_cons, List.append_assoc]
    rfl
  · have other := others h (List.mem_reverse.mp later)
    rw [same, here] at other
    simp at other

-- Whichever it is, something stands at the place of every file.
theorem Fills.there {f : String × String} (fills : Fills l runner w files w') (member : f ∈ files)
    (left : ∀ f ∈ files, Leaves runner l.directory (l.directory.join f.1).place)
    (silent : ∀ f ∈ files, ¬w.Outlet (l.directory.join f.1).place) :
    (w'.disk.file? (l.directory.join f.1).place).isSome = true := by
  obtain ⟨front, g, back, split, same, last⟩ :=
    exists_last (fun f => (l.directory.join f.1).place) member
  have stands := fills.stands split left silent last
  rw [same] at stands
  rw [stands]
  rfl

/-! ### The files of a project -/

-- A project that is there is registered without being written.
theorem register_there {xml : String} {refused : Bool} (there : (w.disk.file? l.project.place).isSome = true)
    (ran : (Registry.register l.project xml).run runner w = (.ok refused, w')) :
    Steps (l.onwards []) runner w w' := by
  rw [Registry.register_eq] at ran
  obtain ⟨present, middle, looked, ran⟩ := bind_parts ran
  rw [Scaffold.pathExists_run] at looked
  cases seen : w.disk.look l.project with
  | error cause =>
    rw [seen] at looked
    cases looked
  | ok item =>
    rw [seen] at looked
    cases looked
    cases item with
    | some item => exact (Registry.enroll_walks (l := l.onwards [])).well ran |>.1
    | none =>
      -- it could not be written where it is not seen
      obtain ⟨_, _, wrote, _⟩ := bind_parts ran
      obtain ⟨_, done, rfl⟩ := onDisk_parts wrote
      obtain ⟨place, writable, _⟩ := write_parts done
      have located := writable.located
      obtain rfl := Disk.locate_place located
      rw [Disk.look_located located] at seen
      unfold Disk.file? at there
      rw [Except.ok.inj seen] at there
      cases there

theorem splitUsings_fills {kept : Source.Unit} {stem suffix : String}
    (ran : (Scaffold.splitUsings ⟨l.directory⟩ l.directory stem suffix u).run runner w = (.ok kept, w')) :
    Fills l runner w (Scaffold.usingFiles (stem ++ suffix) u) w' := by
  unfold Scaffold.splitUsings at ran
  unfold Scaffold.usingFiles
  cases none : u.distinctUsings.isEmpty with
  | true =>
    simp only [none, if_true] at ran ⊢
    obtain ⟨_, rfl⟩ := pure_parts ran
    exact .done .refl
  | false =>
    simp only [none, Bool.false_eq_true, if_false] at ran ⊢
    obtain ⟨_, _, notes, ran⟩ := bind_parts ran
    obtain ⟨_, middle, wrote, ran⟩ := bind_parts ran
    obtain ⟨_, rfl⟩ := note_pure_parts ran
    exact .write (Scaffold.noteUsings_walks.well notes).1 wrote (.done (Step.hear _).steps)

theorem writeSource_fills {written : Path}
    (ran : (Scaffold.writeSource ⟨l.directory⟩ l.directory name u).run runner w = (.ok written, w')) :
    Fills l runner w [(name, u.fullText)] w' := by
  unfold Scaffold.writeSource at ran
  obtain ⟨_, middle, wrote, ran⟩ := bind_parts ran
  obtain ⟨_, rfl⟩ := note_pure_parts ran
  exact .single wrote (Step.hear _).steps

theorem writeProjectFile_fills {s : Scaffold} {written : Path}
    (ran : (s.writeProjectFile ⟨l.directory⟩ l.directory name xml).run runner w = (.ok written, w')) :
    written = l.directory.join (name ++ s.extension) ∧ Fills l runner w [(name ++ s.extension, xml)] w' := by
  unfold Scaffold.writeProjectFile at ran
  obtain ⟨_, middle, wrote, ran⟩ := bind_parts ran
  obtain ⟨same, rfl⟩ := note_pure_parts ran
  exact ⟨same.symm, .single wrote (Step.hear _).steps⟩

theorem writeReadme_fills {written : Path}
    (ran : (Scaffold.writeReadme ⟨l.directory⟩ l.directory content).run runner w = (.ok written, w')) :
    Fills l runner w [(Scaffold.readmeName, content)] w' := by
  unfold Scaffold.writeReadme at ran
  obtain ⟨_, middle, wrote, ran⟩ := bind_parts ran
  obtain ⟨_, rfl⟩ := pure_parts ran
  exact .single wrote .refl

-- The last act of a run that commits.
def Closes (e : Expansion) (runner : Runner σ) (directory : Path) (w : World σ) (c : Commit) (w' : World σ) : Prop :=
  (Repository.commitStaged ⟨directory⟩ e.configuration.commits.identity e.configuration.commits.message).run
    runner w = (.ok c, w')

theorem Closes.steps (closes : e.Closes runner l.directory w c w') : Steps (l.onwards []) runner w w' :=
  ((Repository.commitStaged_walks (l := l.onwards [])).well closes).1

-- From the source on.
theorem deliver_fills {projectFile : Path} {early : List (String × String)} {ready : World σ}
    (project : projectFile = l.project) (named : l.project = l.directory.join (e.projectName source))
    (filled : Fills l runner ready early w) (member : (e.projectName source, xml) ∈ early)
    (left : ∀ f ∈ early ++ [(source.name, u.fullText)], Leaves runner l.directory (l.directory.join f.1).place)
    (silent : ∀ f ∈ early ++ [(source.name, u.fullText)], ¬ready.Outlet (l.directory.join f.1).place)
    (ran : (e.deliver source l.directory ⟨l.directory⟩ projectFile u).run runner w = (.ok (.committed c), w')) :
    ∃ completed, Fills l runner ready (early ++ [(source.name, u.fullText)]
        ++ [(Scaffold.readmeName, e.configuration.project.readme)]) completed ∧
      e.Closes runner l.directory completed c w' := by
  subst project
  obtain ⟨written, sourced, added, readme, completed, wrote, registered, readme_wrote, committed⟩ :=
    deliver_parts ran
  have sources : Fills l runner ready (early ++ [(source.name, u.fullText)]) sourced :=
    filled.append (writeSource_fills wrote)
  have told := sources.followed (Step.hear ⟨.info, part, "Wrote source to " ++ written.toString⟩).steps
  have there := told.there (List.mem_append_left _ member) left silent
  rw [← named] at there
  exact ⟨completed, (told.followed (register_there there registered)).append (writeReadme_fills readme_wrote),
    committed⟩

-- A run that commits has written all files of its project from where the directory was ready on.
theorem build_fills (names : List String)
    (left : ∀ f ∈ e.projectFiles source u xml, Leaves runner directory (directory.join f.1).place)
    (silent : ∀ f ∈ e.projectFiles source u xml, ¬w.Outlet (directory.join f.1).place)
    (ran : (e.build source directory xml u).run runner w = (.ok (.committed c), w')) :
    ∃ ready completed, Steps (e.leeway source directory names) runner w ready ∧
      Fills (e.leeway source directory names) runner ready (e.projectFiles source u xml) completed ∧
      e.Closes runner directory completed c w' := by
  obtain ⟨r, ready, projectFile, filed, kept, split, prepared, wrote, usings, delivered⟩ := build_parts ran
  obtain ⟨steps, rfl⟩ := (Scaffold.prepare_walks (l := e.leeway source directory names) rfl).well prepared
  obtain ⟨same, first⟩ := writeProjectFile_fills (l := e.leeway source directory names) wrote
  rw [Scaffold.splitUsings_parts usings] at delivered
  have early := first.append (splitUsings_fills (l := e.leeway source directory names) usings)
  have quiet (f : String × String) (member : f ∈ e.projectFiles source u xml) :
      ¬ready.Outlet (directory.join f.1).place := by
    rw [(steps_outlets steps).outlet]
    exact silent f member
  have sub (f : String × String) (member : f ∈ e.earlyFiles source u xml) :
      f ∈ e.projectFiles source u xml := List.mem_append_left _ member
  obtain ⟨completed, fills, closes⟩ := deliver_fills (l := e.leeway source directory names) same rfl early
    (List.mem_append_left _ List.mem_cons_self) (fun f member => left f (sub f member))
    (fun f member => quiet f (sub f member)) delivered
  exact ⟨ready, completed, steps, fills, closes⟩

theorem mem_artifactNames : name ∈ e.artifactNames source u ↔
    name ∈ [e.projectName source, source.name, Scaffold.readmeName] ∨
      name = e.configuration.project.globalUsings ++ source.suffix ∧ u.usings ≠ [] := by
  unfold artifactNames
  rw [Scaffold.distinctUsings_isEmpty]
  cases u.usings with
  | nil => simp
  | cons n rest => simp [or_assoc, or_comm, or_left_comm]

theorem artifactNames_possible (named : name ∈ e.artifactNames source u) : name ∈ e.possibleNames source := by
  unfold possibleNames
  rcases mem_artifactNames.mp named with always | ⟨rfl, _⟩
  · simp only [List.mem_cons, List.not_mem_nil, or_false] at always ⊢
    tauto
  · simp

theorem projectFiles_possible {f : String × String} (member : f ∈ e.projectFiles source u xml) :
    f.1 ∈ e.possibleNames source := by
  have names : (e.projectFiles source u xml).map (·.1) = e.artifactNames source u := projectFiles_names
  exact artifactNames_possible (names ▸ List.mem_map_of_mem member)

-- Expansions that were cut short are rows of steps as well.
theorem failing_steps {names : List String} {output : Path} {failed : List Source.Node}
    (lists : e.Lists source u names) (failing : Failing e runner source output u w failed w') :
    Steps (e.leeway source (output.join source.stem) names) runner w w' := by
  induction failing with
  | none => exact .refl
  | cons cut _ _ ih => exact (((expandComment_walks lists).failed cut).tail (.hear _)).trans ih

-- Up to where the directory is made ready.
theorem expandComment_begun (names : List String) {output : Path} {d : Source.Node}
    (ran : (e.expandComment source output u d).run runner w = (.ok (.committed c), w')) :
    ∃ xml evicted, e.normalizer.normalize (Descriptor.ofComment d.text) = .ok xml ∧
      Steps (e.leeway source (output.join source.stem) names) runner w evicted ∧
      (e.build source (output.join source.stem) xml (u.without [d])).run runner evicted
        = (.ok (.committed c), w') := by
  obtain ⟨xml, read, evicted, described, _, gone, built⟩ := expandComment_built ran
  have first : Steps (e.leeway source (output.join source.stem) names) runner w read :=
    (projectXml_walks.well described).1
  have second : Steps (e.leeway source (output.join source.stem) names) runner _ evicted :=
    ((evict_walks (l := e.leeway source (output.join source.stem) names)).well gone).1
  exact ⟨xml, evicted, projectXml_parts described, (first.tail (.hear _)).trans second, built⟩

-- A run that commits gets to where its directory is ready, and writes the files of the project.
theorem processFileBy_fills {parse : String → Source.Unit} {names : List String}
    (source_is : source = file.resolve e.here) (directory_is : directory = (e.outputOf file asked).join source.stem)
    (lists : ∀ text, textAt (opened source w).disk source = .ok text → e.Lists source (parse text) names)
    (left : ∀ name ∈ e.possibleNames source, Leaves runner directory (directory.join name).place)
    (silent : ∀ name ∈ e.possibleNames source, ¬w.Outlet (directory.join name).place)
    (ran : (e.processFileBy parse file asked).run runner w = (.ok (.committed c), w')) :
    ∃ text d xml ready completed expanded, textAt (opened source w).disk source = .ok text ∧
      d ∈ (parse text).descriptorComments ∧ e.normalizer.normalize (Descriptor.ofComment d.text) = .ok xml ∧
      Steps (e.leeway source directory names) runner w ready ∧
      Fills (e.leeway source directory names) runner ready (e.projectFiles source ((parse text).without [d]) xml)
        completed ∧
      e.Closes runner directory completed c expanded ∧
      w' = hear ⟨.info, part, "Processed " ++ source.toString⟩ expanded := by
  obtain ⟨text, read, processed⟩ := processFileBy_parts ran rfl
  rw [← source_is] at read processed
  obtain ⟨output, failed, d, rest, middle, expanded, placed, split, failing, one, ended⟩ :=
    processUnit_parts processed rfl
  have placed := (outputFor_parts placed).1
  rw [source_is] at placed
  have same : output.join source.stem = directory := by
    rw [directory_is, placed]
    rfl
  obtain ⟨xml, evicted, described, begun, built⟩ := expandComment_begun names one
  have failings := failing_steps (lists text read) failing
  rw [same] at begun built failings
  have before : Steps (e.leeway source directory names) runner w evicted :=
    ((Step.hear _).steps.trans failings).trans begun
  obtain ⟨ready, completed, prepared, fills, closes⟩ := build_fills names
    (fun f member => left f.1 (projectFiles_possible member))
    (fun f member => by rw [(steps_outlets before).outlet]; exact silent f.1 (projectFiles_possible member)) built
  refine ⟨text, d, xml, ready, completed, expanded, read, ?_, described, before.trans prepared, fills, closes, ended⟩
  rw [split]
  exact List.mem_append_right _ List.mem_cons_self

-- After a run that has committed, every file of its project stands as it was written unless a later one was
-- written to the same place; so all of them stand where their places differ.
theorem artifacts_stand {parse : String → Source.Unit} (source_is : source = file.resolve e.here)
    (directory_is : directory = (e.outputOf file asked).join source.stem)
    (left : ∀ name ∈ e.possibleNames source, Leaves runner directory (directory.join name).place)
    (silent : ∀ name ∈ e.possibleNames source, ¬w.Outlet (directory.join name).place)
    (ran : (e.processFileBy parse file asked).run runner w = (.ok (.committed c), w')) :
    ∃ text d xml, textAt (opened source w).disk source = .ok text ∧ d ∈ (parse text).descriptorComments ∧
      e.normalizer.normalize (Descriptor.ofComment d.text) = .ok xml ∧
      (∀ front f back, e.projectFiles source ((parse text).without [d]) xml = front ++ f :: back →
        (∀ g ∈ back, (directory.join g.1).place ≠ (directory.join f.1).place) →
        w'.disk.file? (directory.join f.1).place = some f.2.toUTF8) ∧
      (((e.projectFiles source ((parse text).without [d]) xml).map fun f => (directory.join f.1).place).Nodup →
        ∀ f ∈ e.projectFiles source ((parse text).without [d]) xml,
          w'.disk.file? (directory.join f.1).place = some f.2.toUTF8) := by
  obtain ⟨text, d, xml, ready, completed, expanded, read, chosen, described, steps, fills, closes, ended⟩ :=
    processFileBy_fills source_is directory_is (fun _ _ => lists_possible) left silent ran
  have closing : Steps ((e.leeway source directory (e.possibleNames source)).onwards []) runner completed w' := by
    have closed : Steps ((e.leeway source directory (e.possibleNames source)).onwards []) runner completed expanded :=
      Closes.steps (l := e.leeway source directory (e.possibleNames source)) closes
    rw [ended]
    exact closed.tail (.hear _)
  have stands (front : List (String × String)) (f : String × String) (back : List (String × String))
      (split : e.projectFiles source ((parse text).without [d]) xml = front ++ f :: back)
      (last : ∀ g ∈ back, (directory.join g.1).place ≠ (directory.join f.1).place) :
      w'.disk.file? (directory.join f.1).place = some f.2.toUTF8 := by
    refine (fills.followed closing).stands split (fun g member => left g.1 (projectFiles_possible member))
      (fun g member => ?_) last
    rw [(steps_outlets steps).outlet]
    exact silent g.1 (projectFiles_possible member)
  refine ⟨text, d, xml, read, chosen, described, stands, fun differ f member => ?_⟩
  obtain ⟨front, back, split⟩ := List.append_of_mem member
  refine stands front f back split fun g later same => ?_
  rw [split, List.map_append, List.map_cons] at differ
  have apart := (List.nodup_cons.mp (List.nodup_append.mp differ).2.1).1
  exact apart (List.mem_map.mpr ⟨g, later, same⟩)

end Expansion

/-! ### At the bench -/

namespace Git.Memory

theorem verb_of_order {arguments : List String} :
    (Order.ofArguments arguments = some .reset → arguments.tail.head? = some "reset") ∧
      (Order.ofArguments arguments = some .clean → arguments.tail.head? = some "clean") := by
  constructor <;> intro ordered <;> unfold Order.ofArguments at ordered <;> split at ordered <;> cases ordered <;> rfl

-- A call that discards nothing leaves the disk as it is, or a repository begins.
theorem disk_of_tame {c : Call} {g : Memory} {d : Disk} (tame : c.Tame) : (runner c g d).2.2 = d ∨
    (d.item? (metadataPlace c.directory.place) = none ∧
      (runner c g d).2.2 = d.put (metadataPlace c.directory.place) .directory) := by
  have turned : Turn c g d (runner c g d).1 (runner c g d).2.1 (runner c g d).2.2 := turn
  generalize (runner c g d).1 = reply, (runner c g d).2.1 = g', (runner c g d).2.2 = d' at turned ⊢
  cases turned with
  | refused => exact .inl rfl
  | performed ordered _ performed =>
    rcases Shelf.perform_disk performed with same | ⟨rfl, _⟩ | ⟨rfl, _⟩
    · exact .inl same
    · exact absurd (verb_of_order.1 ordered) tame.1
    · exact absurd (verb_of_order.2 ordered) tame.2
  | begun _ _ fresh => exact .inr ⟨fresh, rfl⟩

theorem leaves {directory : Path} {q : Place} : Expansion.Leaves runner directory q := by
  intro c g d _ tame
  rcases disk_of_tame (g := g) (d := d) tame with same | ⟨fresh, made⟩
  · rw [same]
  · rw [made]
    by_cases own : q = metadataPlace c.directory.place
    · unfold Disk.file?
      rw [Disk.item?_put _ _ _ _ metadata_deep, if_pos own, own, fresh]
    · exact Disk.file?_put metadata_deep own

end Git.Memory

namespace Expansion

theorem artifacts_stand_tool : ∃ w',
    atBench.toolRun.run Memory.runner (benchWith toolText []) = (.ok (.committed ⟨"2", "Created AdHoc Project"⟩), w') ∧
    ∀ f ∈ atBench.projectFiles toolSource ((Source.Unit.ofString toolText).without [toolComment])
        "<Project Sdk=\"A\" />",
      w'.disk.file? ((⟨.root, toolHome⟩ : Path).join f.1).place = some f.2.toUTF8 := by
  obtain ⟨w', ran⟩ := toolRun_commits
  have source_is : toolSource = Path.resolve ⟨.here, ["Tool.cs"]⟩ atBench.here := by decide
  have directory_is : (⟨.root, toolHome⟩ : Path)
      = (atBench.outputOf ⟨.here, ["Tool.cs"]⟩ none).join toolSource.stem := by decide
  have aside : ∀ name ∈ atBench.possibleNames toolSource,
      (Path.join ⟨.root, toolHome⟩ name).place ≠ registryAtBench.place := by decide
  obtain ⟨text, d, xml, read, chosen, described, _, stands⟩ := artifacts_stand source_is directory_is
    (fun _ _ => Memory.leaves) (fun name listed kept => aside name listed (bench_outlet kept)) ran
  have known : textAt (opened toolSource (benchWith toolText [])).disk toolSource = .ok toolText := by
    decide +kernel
  have same : text = toolText := Except.ok.inj (read.symm.trans known)
  have one : (Source.Unit.ofString toolText).descriptorComments = [toolComment] := by decide +kernel
  rw [same, one] at chosen
  have comment := List.mem_singleton.mp chosen
  have markup : atBench.normalizer.normalize (Descriptor.ofComment toolComment.text)
      = .ok "<Project Sdk=\"A\" />" := by decide +kernel
  rw [comment] at described
  have canonical := Except.ok.inj (described.symm.trans markup)
  rw [same, comment, canonical] at stands
  have differ : ((atBench.projectFiles toolSource ((Source.Unit.ofString toolText).without [toolComment])
      "<Project Sdk=\"A\" />").map fun f => ((⟨.root, toolHome⟩ : Path).join f.1).place).Nodup := by decide +kernel
  exact ⟨w', ran, stands differ⟩

end Expansion
end InlineProject
