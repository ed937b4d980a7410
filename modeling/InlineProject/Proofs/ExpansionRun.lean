import InlineProject.Expansion
import InlineProject.Proofs.ActionRun
import InlineProject.Proofs.DiskRun
/-!
The run of an expansion, taken apart: what is handed to those who write, which comments came to
nothing before one was expanded, and that the commit of a run is the one of that expansion.
-/

namespace InlineProject

open InlineProject.Action

namespace Source.Unit

theorem without_nil (u : Source.Unit) : u.without [] = u := by
  have all : u.nodes.filter (fun n => !([].any fun g : Node => g.place = n.place)) = u.nodes :=
    List.filter_eq_self.mpr fun _ _ => rfl
  unfold without
  rw [all]

theorem without_nodes_subset {u : Source.Unit} {gone : List Node} {n : Node}
    (kept : n ∈ (u.without gone).nodes) : n ∈ u.nodes := (List.mem_filter.mp kept).1

theorem without_place_ne {u : Source.Unit} {gone : List Node} {n d : Node}
    (kept : n ∈ (u.without gone).nodes) (listed : d ∈ gone) : n.place ≠ d.place := by
  intro same
  have absent := (List.mem_filter.mp kept).2
  have present : (gone.any fun g => g.place = n.place) = true :=
    List.any_eq_true.mpr ⟨d, listed, decide_eq_true same.symm⟩
  rw [present] at absent
  cases absent

-- Directives that say the same are told once, but the first one is always told.
theorem usings_of_distinctUsings_isEmpty {u : Source.Unit} (none : u.distinctUsings.isEmpty = true) :
    u.usings = [] := by
  unfold distinctUsings at none
  cases listed : u.usings with
  | nil => rfl
  | cons n rest => rw [listed] at none; cases none

end Source.Unit

namespace Scaffold

variable {σ : Type} {runner : Git.Runner σ} {w w' : World σ}

-- A file is staged as it was written.
theorem writeStaged_parts {r : Git.Repository} {file : Path} {content : String}
    (ran : (writeStaged r file content).run runner w = (.ok (), w')) :
    ∃ place, DiskAction.Writable w.disk file place ∧
      (r.stage file).run runner { w with disk := w.disk.put place (.file content.toUTF8) }
        = (.ok (), w') := by
  unfold writeStaged at ran
  obtain ⟨_, _, wrote, staged⟩ := bind_parts ran
  obtain ⟨disk, done, rfl⟩ := onDisk_parts wrote
  obtain ⟨place, writable, rfl⟩ := DiskAction.write_parts done
  exact ⟨place, writable, staged⟩

-- The directives are gone from what is left, whether there were any or not.
theorem splitUsings_parts {r : Git.Repository} {directory : Path} {stem suffix : String}
    {u kept : Source.Unit}
    (ran : (splitUsings r directory stem suffix u).run runner w = (.ok kept, w')) :
    kept = u.without u.usings := by
  unfold splitUsings at ran
  cases none : u.distinctUsings.isEmpty with
  | true =>
    simp only [none, if_true] at ran
    rw [← (pure_parts ran).1, Source.Unit.usings_of_distinctUsings_isEmpty none,
      Source.Unit.without_nil]
  | false =>
    simp only [none, Bool.false_eq_true, if_false] at ran
    obtain ⟨_, _, _, ran⟩ := bind_parts ran
    obtain ⟨_, _, _, ran⟩ := bind_parts ran
    exact (note_pure_parts ran).1.symm

end Scaffold

namespace Expansion

variable {σ : Type} {runner : Git.Runner σ} {w w' : World σ} {e : Expansion}
  {source output directory : Path} {u : Source.Unit} {d : Source.Node} {xml : String} {c : Commit} {o : Outcome}

/-! ### One stage after another -/

-- How an expansion ends well: without a descriptor nothing is built.
theorem expandComment_cases (ran : (e.expandComment source output u d).run runner w = (.ok o, w')) :
    ∃ xml read, (e.projectXml d).run runner w = (.ok xml, read) ∧
      ((xml.isEmpty = true ∧ o = .withoutProject) ∨ (xml.isEmpty = false ∧ ∃ evicted,
        (evict source.stem).run runner
          (hear ⟨.info, part, "Expanding project directory: " ++ (output.join source.stem).toString⟩ read)
          = (.ok (), evicted) ∧
        (e.build source (output.join source.stem) xml (u.without [d])).run runner evicted = (.ok o, w'))) := by
  unfold expandComment at ran
  obtain ⟨xml, read, described, ran⟩ := bind_parts ran
  refine ⟨xml, read, described, ?_⟩
  cases present : xml.isEmpty with
  | true =>
    simp only [present, if_true] at ran
    exact .inl ⟨rfl, (note_pure_parts ran).1.symm⟩
  | false =>
    simp only [present, Bool.false_eq_true, if_false] at ran
    have ran := note_parts ran
    obtain ⟨_, evicted, gone, ran⟩ := bind_parts ran
    exact .inr ⟨rfl, evicted, gone, ran⟩

theorem expandComment_built (ran : (e.expandComment source output u d).run runner w = (.ok (.committed c), w')) :
    ∃ xml read evicted, (e.projectXml d).run runner w = (.ok xml, read) ∧ xml.isEmpty = false ∧
      (evict source.stem).run runner
        (hear ⟨.info, part, "Expanding project directory: " ++ (output.join source.stem).toString⟩
          read) = (.ok (), evicted) ∧
      (e.build source (output.join source.stem) xml (u.without [d])).run runner evicted
        = (.ok (.committed c), w') := by
  obtain ⟨xml, read, described, ⟨_, other⟩ | ⟨present, evicted, gone, built⟩⟩ := expandComment_cases ran
  · cases other
  · exact ⟨xml, read, evicted, described, present, gone, built⟩

theorem expandComment_of_built {read evicted : World σ} {result : Except Failure Outcome}
    (described : (e.projectXml d).run runner w = (.ok xml, read)) (present : xml.isEmpty = false)
    (gone : (evict source.stem).run runner
      (hear ⟨.info, part, "Expanding project directory: " ++ (output.join source.stem).toString⟩
        read) = (.ok (), evicted))
    (built : (e.build source (output.join source.stem) xml (u.without [d])).run runner evicted
      = (result, w')) :
    (e.expandComment source output u d).run runner w = (result, w') := by
  unfold expandComment
  rw [bind_ok described]
  simp only [present, Bool.false_eq_true, if_false]
  rw [bind_ok (run_note _ _ _), bind_ok gone]
  exact built

theorem build_parts (ran : (e.build source directory xml u).run runner w = (.ok o, w')) :
    ∃ r ready projectFile filed kept split,
      (e.scaffold.prepare directory).run runner w = (.ok r, ready) ∧
      (e.scaffold.writeProjectFile r directory source.stem xml).run runner ready
        = (.ok projectFile, filed) ∧
      (Scaffold.splitUsings r directory e.configuration.project.globalUsings source.suffix u).run
        runner filed = (.ok kept, split) ∧
      (e.deliver source directory r projectFile kept).run runner split = (.ok o, w') := by
  unfold build at ran
  obtain ⟨r, ready, prepared, ran⟩ := bind_parts ran
  obtain ⟨projectFile, filed, wrote, ran⟩ := bind_parts ran
  obtain ⟨kept, split, usings, ran⟩ := bind_parts ran
  exact ⟨r, ready, projectFile, filed, kept, split, prepared, wrote, usings, ran⟩

theorem build_of_parts {r : Git.Repository} {projectFile : Path} {kept : Source.Unit} {ready filed split : World σ}
    {result : Except Failure Outcome}
    (prepared : (e.scaffold.prepare directory).run runner w = (.ok r, ready))
    (wrote : (e.scaffold.writeProjectFile r directory source.stem xml).run runner ready
      = (.ok projectFile, filed))
    (usings : (Scaffold.splitUsings r directory e.configuration.project.globalUsings source.suffix
      u).run runner filed = (.ok kept, split))
    (delivered : (e.deliver source directory r projectFile kept).run runner split = (result, w')) :
    (e.build source directory xml u).run runner w = (result, w') := by
  unfold build
  rw [bind_ok prepared, bind_ok wrote, bind_ok usings]
  exact delivered

-- How a delivery ends well: a project that is refused is not committed.
theorem deliver_cases {r : Git.Repository} {projectFile : Path}
    (ran : (e.deliver source directory r projectFile u).run runner w = (.ok o, w')) :
    o = .withoutProject ∨ ∃ written sourced added readme completed c, o = .committed c ∧
      (Scaffold.writeSource r directory source.name u).run runner w = (.ok written, sourced) ∧
      (Registry.register projectFile e.configuration.project.defaultXml).run runner
          (hear ⟨.info, part, "Wrote source to " ++ written.toString⟩ sourced) = (.ok false, added) ∧
      (Scaffold.writeReadme r directory e.configuration.project.readme).run runner added
        = (.ok readme, completed) ∧
      (r.commitStaged e.configuration.commits.identity e.configuration.commits.message).run runner
        completed = (.ok c, w') := by
  unfold deliver at ran
  obtain ⟨written, sourced, wrote, ran⟩ := bind_parts ran
  have ran := note_parts ran
  obtain ⟨refused, added, registered, ran⟩ := bind_parts ran
  cases refused with
  | true => exact .inl (pure_parts ran).1.symm
  | false =>
    simp only [Bool.false_eq_true, if_false] at ran
    obtain ⟨readme, completed, readmeWritten, ran⟩ := bind_parts ran
    obtain ⟨c, ended, committed, ran⟩ := bind_parts ran
    obtain ⟨same, rfl⟩ := pure_parts ran
    exact .inr ⟨written, sourced, added, readme, completed, c, same.symm, wrote, registered, readmeWritten, committed⟩

theorem deliver_parts {r : Git.Repository} {projectFile : Path}
    (ran : (e.deliver source directory r projectFile u).run runner w = (.ok (.committed c), w')) :
    ∃ written sourced added readme completed,
      (Scaffold.writeSource r directory source.name u).run runner w = (.ok written, sourced) ∧
      (Registry.register projectFile e.configuration.project.defaultXml).run runner
          (hear ⟨.info, part, "Wrote source to " ++ written.toString⟩ sourced) = (.ok false, added) ∧
      (Scaffold.writeReadme r directory e.configuration.project.readme).run runner added
        = (.ok readme, completed) ∧
      (r.commitStaged e.configuration.commits.identity e.configuration.commits.message).run runner
        completed = (.ok c, w') := by
  rcases deliver_cases ran with other | ⟨written, sourced, added, readme, completed, made, same, parts⟩
  · cases other
  · cases same
    exact ⟨written, sourced, added, readme, completed, parts⟩

theorem deliver_of_parts {r : Git.Repository} {projectFile written readme : Path} {sourced added completed : World σ}
    (wrote : (Scaffold.writeSource r directory source.name u).run runner w = (.ok written, sourced))
    (registered : (Registry.register projectFile e.configuration.project.defaultXml).run runner
      (hear ⟨.info, part, "Wrote source to " ++ written.toString⟩ sourced) = (.ok false, added))
    (readmeWritten : (Scaffold.writeReadme r directory e.configuration.project.readme).run runner
      added = (.ok readme, completed))
    (committed : (r.commitStaged e.configuration.commits.identity
      e.configuration.commits.message).run runner completed = (.ok c, w')) :
    (e.deliver source directory r projectFile u).run runner w = (.ok (.committed c), w') := by
  unfold deliver
  rw [bind_ok wrote, bind_ok (run_note _ _ _), bind_ok registered]
  simp only [Bool.false_eq_true, if_false]
  rw [bind_ok readmeWritten, bind_ok committed]
  rfl

/-! ### Up to the source -/

-- What an expansion has in hand when the source is about to be written.
structure Handed where
  xml : String
  repository : Git.Repository
  projectFile : Path
  kept : Source.Unit

-- The expansion of `d` from `w` has got to the source, and the world is `w'`. The calls stand here as
-- the expansion makes them: what a writer is handed is what its call says.
def ReachesSource (e : Expansion) (runner : Git.Runner σ) (source output : Path) (u : Source.Unit)
    (d : Source.Node) (w : World σ) (h : Handed) (w' : World σ) : Prop :=
  let directory := output.join source.stem
  ∃ read evicted prepared written,
    (e.projectXml d).run runner w = (.ok h.xml, read) ∧ h.xml.isEmpty = false ∧
    (evict source.stem).run runner
      (hear ⟨.info, part, "Expanding project directory: " ++ directory.toString⟩ read)
      = (.ok (), evicted) ∧
    (e.scaffold.prepare directory).run runner evicted = (.ok h.repository, prepared) ∧
    (e.scaffold.writeProjectFile h.repository directory source.stem h.xml).run runner prepared
      = (.ok h.projectFile, written) ∧
    (Scaffold.splitUsings h.repository directory e.configuration.project.globalUsings source.suffix
      (u.without [d])).run runner written = (.ok h.kept, w')

theorem projectXml_parts (ran : (e.projectXml d).run runner w = (.ok xml, w')) :
    e.normalizer.normalize (Descriptor.ofComment d.text) = .ok xml := by
  unfold projectXml at ran
  unfold Normalizer.normalize
  cases found : e.normalizer.read (Descriptor.ofComment d.text).toList with
  | error cause => rw [found] at ran; cases ran
  | ok reading =>
    rw [found] at ran
    dsimp only at ran
    have same : reading.xml e.normalizer = xml := by
      split at ran
      · exact (note_pure_parts ran).1
      · exact (pure_parts ran).1
    rw [← same]
    rfl

-- From where the source is reached on, the expansion goes on as `deliver` does.
theorem expandComment_of_reaches {h : Handed}
    (reached : e.ReachesSource runner source output u d w h w') :
    (e.expandComment source output u d).run runner w
      = (e.deliver source (output.join source.stem) h.repository h.projectFile h.kept).run
          runner w' := by
  obtain ⟨read, evicted, prepared, written, described, present, gone, ready, filed, split⟩ := reached
  exact expandComment_of_built described present gone (build_of_parts ready filed split rfl)

theorem expandComment_parts
    (ran : (e.expandComment source output u d).run runner w = (.ok (.committed c), w')) :
    ∃ h reached, e.ReachesSource runner source output u d w h reached ∧
      (e.deliver source (output.join source.stem) h.repository h.projectFile h.kept).run
        runner reached = (.ok (.committed c), w') := by
  obtain ⟨xml, read, evicted, described, present, gone, built⟩ := expandComment_built ran
  obtain ⟨r, prepared, projectFile, written, kept, reached, ready, filed, split, delivered⟩ := build_parts built
  exact ⟨⟨xml, r, projectFile, kept⟩, reached,
    ⟨read, evicted, prepared, written, described, present, gone, ready, filed, split⟩, delivered⟩

-- What is left of the source has neither the comment nor the directives.
theorem kept_of_reaches {h : Handed} (reached : e.ReachesSource runner source output u d w h w') :
    h.kept = (u.without [d]).without (u.without [d]).usings := by
  obtain ⟨_, _, _, _, _, _, _, _, _, split⟩ := reached
  exact Scaffold.splitUsings_parts split

/-! ### Which comment is expanded -/

def failureNote (source : Path) (f : Failure) : Note :=
  ⟨.error, part, "Expansion of " ++ source.toString ++ " failed: " ++ f.message⟩

-- The comments whose expansions came to nothing, one after another: each was cut short by a failure
-- of the system or of the version control program, and the next began where that one had stopped.
inductive Failing (e : Expansion) (runner : Git.Runner σ) (source output : Path)
    (u : Source.Unit) : World σ → List Source.Node → World σ → Prop where
  | none {w : World σ} : Failing e runner source output u w [] w
  | cons {w middle w' : World σ} {d : Source.Node} {rest : List Source.Node} {f : Failure}
      (failed : (e.expandComment source output u d).run runner w = (.error f, middle))
      (transient : f.isTransient = true)
      (later : Failing e runner source output u (hear (failureNote source f) middle) rest w') :
      Failing e runner source output u w (d :: rest) w'

-- An expansion that ends well has dealt with its comment, so a comment is passed over only when its
-- expansion was cut short.
theorem expandComment_handled
    (ran : (e.expandComment source output u d).run runner w = (.ok o, w')) : o.handled = true := by
  obtain ⟨_, _, _, ⟨_, rfl⟩ | ⟨_, _, _, built⟩⟩ := expandComment_cases ran
  · rfl
  · obtain ⟨_, _, _, _, _, _, _, _, _, delivered⟩ := build_parts built
    rcases deliver_cases delivered with rfl | ⟨_, _, _, _, _, _, rfl, _⟩ <;> rfl

theorem processComment_parts {o : Outcome}
    (ran : (e.processComment source output u d).run runner w = (.ok o, w')) :
    (o.handled = true ∧ (e.expandComment source output u d).run runner w = (.ok o, w')) ∨
    (o = .nothing ∧ ∃ f middle,
      (e.expandComment source output u d).run runner w = (.error f, middle) ∧
        f.isTransient = true ∧ w' = hear (failureNote source f) middle) := by
  unfold processComment at ran
  rw [run_tryCatch] at ran
  cases expanded : (e.expandComment source output u d).run runner w with
  | mk result middle =>
    rw [expanded] at ran
    cases result with
    | ok o' =>
      cases ran
      exact .inl ⟨expandComment_handled expanded, rfl⟩
    | error f =>
      dsimp only at ran
      cases transient : f.isTransient with
      | true =>
        simp only [transient, if_true] at ran
        obtain ⟨rfl, rfl⟩ := note_pure_parts ran
        exact .inr ⟨rfl, f, middle, rfl, transient, rfl⟩
      | false =>
        simp only [transient, Bool.false_eq_true, if_false] at ran
        cases ran

theorem firstHandled_parts {comments : List Source.Node} {o : Outcome}
    (ran : (Descriptor.firstHandled (e.processComment source output u) comments).run runner w
      = (.ok o, w')) (handled : o.handled = true) :
    ∃ failed d rest middle, comments = failed ++ d :: rest ∧
      Failing e runner source output u w failed middle ∧
      (e.expandComment source output u d).run runner middle = (.ok o, w') := by
  induction comments generalizing w with
  | nil =>
    obtain ⟨rfl, _⟩ := pure_parts ran
    cases handled
  | cons comment rest ih =>
    unfold Descriptor.firstHandled at ran
    obtain ⟨first, middle, tried, ran⟩ := bind_parts ran
    rcases processComment_parts tried with ⟨done, expanded⟩ | ⟨rfl, f, stopped, failed, transient, rfl⟩
    · simp only [done, if_true] at ran
      obtain ⟨rfl, rfl⟩ := pure_parts ran
      exact ⟨[], comment, rest, w, rfl, .none, expanded⟩
    · obtain ⟨before, d, after, reached, rfl, failing, expanded⟩ := ih ran
      exact ⟨comment :: before, d, after, reached, rfl, .cons failed transient failing, expanded⟩

-- Where no comment is dealt with, nothing comes of the file.
theorem firstHandled_nothing {comments : List Source.Node} {o : Outcome}
    (ran : (Descriptor.firstHandled (e.processComment source output u) comments).run runner w
      = (.ok o, w')) (unhandled : o.handled = false) : o = .nothing := by
  induction comments generalizing w with
  | nil => exact (pure_parts ran).1.symm
  | cons comment rest ih =>
    unfold Descriptor.firstHandled at ran
    obtain ⟨first, middle, tried, ran⟩ := bind_parts ran
    rcases processComment_parts tried with ⟨done, _⟩ | ⟨rfl, _⟩
    · simp only [done, if_true] at ran
      rw [← (pure_parts ran).1, done] at unhandled
      cases unhandled
    · exact ih ran

-- The first comment is expanded where its expansion ends well.
theorem firstHandled_of_first {comment : Source.Node} {rest : List Source.Node} {o : Outcome}
    (expanded : (e.expandComment source output u comment).run runner w = (.ok o, w')) :
    (Descriptor.firstHandled (e.processComment source output u) (comment :: rest)).run runner w
      = (.ok o, w') := by
  have tried : (e.processComment source output u comment).run runner w = (.ok o, w') := by
    unfold processComment
    rw [run_tryCatch, expanded]
  unfold Descriptor.firstHandled
  rw [bind_ok tried]
  simp only [expandComment_handled expanded, if_true]
  rfl

/-! ### The run over a file -/

-- The world in which a file is read.
def opened (source : Path) (w : World σ) : World σ :=
  hear ⟨.info, part, "Processing " ++ source.toString⟩ w

theorem resolve_parts {here p source : Path}
    (ran : (onDisk (DiskAction.resolve here p)).run runner w = (.ok source, w')) :
    source = p.resolve here ∧ w' = w := by
  obtain ⟨disk, done, rfl⟩ := onDisk_parts ran
  unfold DiskAction.resolve at done
  split at done
  · cases done
  · cases done
    exact ⟨rfl, rfl⟩

theorem outputFor_parts {asked : Option Path}
    (ran : (e.outputFor source asked).run runner w = (.ok output, w')) :
    output = (asked.map (·.resolve e.here)).getD (e.configuration.output.getD source.parent) ∧
      w' = w := by
  unfold outputFor at ran
  cases asked with
  | some p => exact resolve_parts ran
  | none =>
    obtain ⟨same, rfl⟩ := pure_parts ran
    exact ⟨same.symm, rfl⟩

-- Whatever the notes at the end say, the outcome is that of the comments.
theorem processUnit_extracts {asked : Option Path} {o : Outcome}
    (ran : (e.processUnit source u asked).run runner w = (.ok o, w')) :
    ∃ output expanded message,
      (e.outputFor source asked).run runner w = (.ok output, w) ∧
      (Descriptor.extract u (e.processComment source output u)).run runner w = (.ok o, expanded) ∧
      w' = hear ⟨.info, part, message ++ source.toString⟩ expanded ∧
      (o.handled = true → message = "Processed ") := by
  unfold processUnit at ran
  obtain ⟨output, middle, placed, extraction⟩ := bind_parts ran
  obtain ⟨_, rfl⟩ := outputFor_parts placed
  obtain ⟨outcome, expanded, extracted, ended⟩ := bind_parts extraction
  cases done : outcome.handled with
  | true =>
    simp only [done, if_true] at ended
    obtain ⟨same, noted⟩ := note_pure_parts ended
    subst same
    exact ⟨output, expanded, _, placed, extracted, noted.symm, fun _ => rfl⟩
  | false =>
    simp only [done, Bool.false_eq_true, if_false] at ended
    obtain ⟨same, noted⟩ := note_pure_parts ended
    subst same
    exact ⟨output, expanded, _, placed, extracted, noted.symm, fun handled => by
      rw [done] at handled
      cases handled⟩

theorem processUnit_parts {asked : Option Path} {o : Outcome}
    (ran : (e.processUnit source u asked).run runner w = (.ok o, w')) (handled : o.handled = true) :
    ∃ output failed d rest middle expanded,
      (e.outputFor source asked).run runner w = (.ok output, w) ∧
      u.descriptorComments = failed ++ d :: rest ∧
      Failing e runner source output u w failed middle ∧
      (e.expandComment source output u d).run runner middle = (.ok o, expanded) ∧
      w' = hear ⟨.info, part, "Processed " ++ source.toString⟩ expanded := by
  obtain ⟨output, expanded, message, placed, extracted, ended, told⟩ := processUnit_extracts ran
  obtain ⟨failed, d, rest, reached, split, failing, one⟩ := firstHandled_parts extracted handled
  rw [told handled] at ended
  exact ⟨output, failed, d, rest, reached, expanded, placed, split, failing, one, ended⟩

-- A file that is read and has a text is processed in its parts; of any other nothing comes.
theorem processFileBy_cases {parse : String → Source.Unit} {file : Path} {asked : Option Path}
    {o : Outcome} (ran : (e.processFileBy parse file asked).run runner w = (.ok o, w')) :
    o = .nothing ∨
    ∃ text, (onDisk (DiskAction.resolve e.here file)).run runner w = (.ok (file.resolve e.here), w) ∧
      textAt (opened (file.resolve e.here) w).disk (file.resolve e.here) = .ok text ∧
      text.isEmpty = false ∧
      (e.processUnit (file.resolve e.here) (parse text) asked).run runner
        (opened (file.resolve e.here) w) = (.ok o, w') := by
  unfold processFileBy at ran
  obtain ⟨source, middle, resolved, reading⟩ := bind_parts ran
  have named := resolved
  obtain ⟨rfl, rfl⟩ := resolve_parts resolved
  have reading := note_parts reading
  rw [bind_ok run_get] at reading
  cases read : textAt (opened (file.resolve e.here) middle).disk (file.resolve e.here) with
  | error reason =>
    rw [show hear _ middle = opened (file.resolve e.here) middle from rfl, read] at reading
    dsimp only at reading
    exact .inl (note_pure_parts reading).1.symm
  | ok text =>
    rw [show hear _ middle = opened (file.resolve e.here) middle from rfl, read] at reading
    dsimp only at reading
    cases empty : text.isEmpty with
    | true =>
      rw [empty, if_pos rfl] at reading
      exact .inl (note_pure_parts reading).1.symm
    | false =>
      rw [empty, if_neg Bool.false_ne_true] at reading
      exact .inr ⟨text, named, rfl, empty, reading⟩

theorem processFileBy_parts {parse : String → Source.Unit} {file : Path} {asked : Option Path}
    {o : Outcome} (ran : (e.processFileBy parse file asked).run runner w = (.ok o, w'))
    (handled : o.handled = true) :
    ∃ text, textAt (opened (file.resolve e.here) w).disk (file.resolve e.here) = .ok text ∧
      (e.processUnit (file.resolve e.here) (parse text) asked).run runner
        (opened (file.resolve e.here) w) = (.ok o, w') := by
  rcases processFileBy_cases ran with rfl | ⟨text, _, read, _, processed⟩
  · cases handled
  · exact ⟨text, read, processed⟩

-- A commit comes only of a comment that was dealt with.
theorem handled_of_commit {parse : String → Source.Unit} {file : Path} {asked : Option Path}
    {o : Outcome} {c : Commit} (ran : (e.processFileBy parse file asked).run runner w = (.ok o, w'))
    (returned : o.commit = some c) : o.handled = true := by
  rcases processFileBy_cases ran with rfl | ⟨text, _, _, _, processed⟩
  · cases returned
  · obtain ⟨output, expanded, _, _, extracted, _⟩ := processUnit_extracts processed
    cases handled : o.handled with
    | true => rfl
    | false =>
      rw [firstHandled_nothing extracted handled] at returned
      cases returned

end Expansion
end InlineProject
