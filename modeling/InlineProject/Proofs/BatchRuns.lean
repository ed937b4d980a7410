import InlineProject.Proofs.ProjectRule
import InlineProject.Proofs.RegistryNames
import InlineProject.Proofs.TwinRuns
/-!
Many files in one run. Each file comes to what it would come to alone, in whatever order the files are taken and
whatever becomes of the others: a run for one project is not noticed by the others.
-/

namespace InlineProject

open InlineProject.Action InlineProject.Git
open InlineProject.DiskAction (Grown OnWay)

variable {σ μ : Type} {memory : σ → Place → μ} {runner : Runner σ} {directory : Path} {base : String} {w v w' : World σ}

theorem Path.suffix_slash {p : Path} (plain : '/' ∉ p.name.toList) : '/' ∉ p.suffix.toList := by
  unfold Path.suffix Path.splitName
  dsimp only
  split
  · exact List.not_mem_nil
  · rw [String.toList_ofList]
    exact fun member => plain (List.mem_of_mem_drop member)

namespace Expansion

/-! ### The run of another project -/

-- Two directories of which neither leads into the other, nor the way to either through the other.
structure Unrelated (here other : Path) : Prop where
  above : ¬here.place <+: other.place
  below : ¬other.place <+: here.place
  way : ∀ q ∈ here.trail, ¬other.place <+: q
  otherWay : ∀ q ∈ other.trail, ¬here.place <+: q

-- Nothing is noticed of a step of a project beside this one that has another name.
theorem step_unnoticed {l : Leeway} (loc : Local runner memory) (flat : ∀ name ∈ l.names, Path.Downward name)
    (beside : Unrelated directory l.directory) (evicted : l.base ≠ base) (entered : l.project.stem ≠ base)
    (lone : Lone directory w) (step : Step l runner w v) : Unnoticed memory directory base w v := by
  -- what lies in the one directory is not in the other
  have apart {q : Place} (inside : directory.place <+: q) : ¬l.directory.place <+: q := by
    intro within
    rcases List.prefix_or_prefix_of_prefix inside within with leads | leads
    · exact beside.above leads
    · exact beside.below leads
  have called {c : Call} (here : c.directory = l.directory) :
      Unnoticed memory directory base w (Leads.asked runner c w) := by
    have aside {q : Place} (outside : ¬l.directory.place <+: q) : (Leads.asked runner c w).disk.item? q = w.disk.item? q := by
      refine loc.aside fun below => outside ?_
      rw [← here]
      exact below.1
    exact ⟨⟨rfl, rfl⟩, loc.sound, fun q inside => aside (apart inside),
      fun q on => congrArg Option.isSome (Disk.file?_congr (aside (beside.way q on))),
      fun q on there => (aside (beside.way q on)).trans there,
      loc.apart (by rw [here]; exact beside.above) (by rw [here]; exact beside.below), rfl⟩
  cases step with
  | hear n => exact hear_unnoticed lone
  | grow sought grown =>
    rcases sought with rfl | ⟨store, path, _⟩
    · refine ⟨⟨rfl, rfl⟩, grown.sound, fun q inside => ?_, fun q _ => congrArg Option.isSome grown.file?,
        fun q _ => grown.directory, rfl, rfl⟩
      refine (grown.entry q).resolve_right fun ⟨_, _, on⟩ => ?_
      rcases DiskAction.onWay_cases on with before | rfl
      · exact beside.otherWay q before inside
      · exact beside.above inside
    · rw [lone.unstored] at path
      cases path
  | @write name content listed writable =>
    have deep := DiskAction.writable_inside writable
    have aside {q : Place} (outside : ¬l.directory.place <+: q) :
        (w.disk.put (l.directory.join name).place (.file content)).item? q = w.disk.item? q := by
      rw [Disk.item?_put _ _ _ _ deep, if_neg]
      rintro rfl
      exact outside (flat name listed).below.1
    exact ⟨⟨rfl, rfl⟩, writable.put_sound, fun q inside => aside (apart inside),
      fun q on => congrArg Option.isSome (Disk.file?_congr (aside (beside.way q on))),
      fun q on there => (aside (beside.way q on)).trans there, rfl, rfl⟩
  | take _ _ => exact called rfl
  | call here _ _ => exact called here
  | evict =>
    refine ⟨⟨rfl, Registry.remove_path⟩, id, fun _ _ => rfl, fun _ _ => rfl, fun _ _ => id, rfl, ?_⟩
    rw [Registry.timeless_remove, if_neg]
    exact fun same => evicted (Project.ofString_injective same).symm
  | enrol =>
    refine ⟨⟨rfl, rfl⟩, id, fun _ _ => rfl, fun _ _ => rfl, fun _ _ => id, rfl, ?_⟩
    unfold Registry.registered
    rw [Registry.timeless_put, if_neg]
    exact fun same => entered (Project.ofString_injective same)
  | save path _ =>
    rw [lone.unstored] at path
    cases path

-- The induction is on the steps.
theorem steps_twin {l : Leeway} (loc : Local runner memory) (flat : ∀ name ∈ l.names, Path.Downward name)
    (beside : Unrelated directory l.directory) (evicted : l.base ≠ base) (entered : l.project.stem ≠ base)
    (twin : Twin memory directory base w v) (steps : Steps l runner v w') : Twin memory directory base w w' := by
  have onward {v v' : World σ} (twin : Twin memory directory base w v) (step : Step l runner v v') :
      Twin memory directory base w v' :=
    twin.onward .refl (step_unnoticed loc flat beside evicted entered twin.right step)
  exact steps.keeps onward twin

/-! ### Batches -/

variable {e : Expansion} {asked : Option Path} {output p r : Path} {paths : List Path}

-- The file that a path stands for, and the directory of its project below an output.
def sourceOf (e : Expansion) (p : Path) : Path := p.resolve e.here

theorem sourceOf_place : (e.sourceOf p).place = (e.here ++ p).place := by
  unfold sourceOf
  rw [Path.place_down Path.resolve_notMem]
  exact Path.resolve_parts_eq p e.here

def homeOf (e : Expansion) (output p : Path) : Path := output.join (e.sourceOf p).stem

-- Files with names of their own that are expanded below one output, with the default names for what is made.
structure Batch (e : Expansion) (asked : Option Path) (output : Path) (paths : List Path) (w : World σ) : Prop where
  extension : e.configuration.project.extension = Configuration.defaultProject.extension
  usings : e.configuration.project.globalUsings = Configuration.defaultProject.globalUsings
  common : ∀ p ∈ paths, e.outputOf p asked = output
  -- every path leads to a file, and its names are names as they are read
  files : ∀ p ∈ paths, ∃ content, w.disk.look (e.here ++ p) = .ok (some (.file content))
  plain : ∀ p ∈ paths, ∀ n ∈ (e.sourceOf p).parts, Path.Plain n
  stems : (paths.map fun p => (e.sourceOf p).stem).Nodup
  named : ∀ p ∈ paths, (e.sourceOf p).stem ∉ [Path.hereName, Path.parentName]
  outside : ∀ p ∈ paths, ∀ r ∈ paths, ¬(e.homeOf output r).place <+: (e.sourceOf p).place
  -- a configured output may be written with steps back, but only out of directories that are there and no projects
  direct : asked = none → e.configuration.output = some output → ∀ q ∈ output.trail,
    q <+: output.place ∨ w.disk.item? q = some .directory ∧ ∀ p ∈ paths, ¬(e.homeOf output p).place <+: q
  sound : w.disk.Sound
  unstored : w.registry.path = none
  -- the journal goes to no source and into no project
  silent : ∀ j file, w.journal = some j → j.file = some file → ∀ p ∈ paths,
    file.place ≠ (e.sourceOf p).place ∧ ¬(e.homeOf output p).place <+: file.place

namespace Batch

variable (batch : Batch e asked output paths w) (member : p ∈ paths)

include batch member

theorem source_file : ∃ content, w.disk.file? (e.sourceOf p).place = some content := by
  obtain ⟨content, seen⟩ := batch.files p member
  refine ⟨content, ?_⟩
  rw [sourceOf_place]
  exact Disk.file?_some.mpr (Disk.look_some seen).2

theorem source_some : (e.sourceOf p).name ≠ "" ∧ Path.Plain (e.sourceOf p).name := by
  obtain ⟨content, file⟩ := batch.source_file member
  have parts : (e.sourceOf p).parts ≠ [] := by
    intro none
    have root : (e.sourceOf p).place = [] := (Path.place_down Path.resolve_notMem).trans none
    rw [root] at file
    cases file
  obtain ⟨n, last⟩ := Option.ne_none_iff_exists'.mp fun none => parts (List.getLast?_eq_none_iff.mp none)
  have name : (e.sourceOf p).name = n := by
    unfold Path.name
    rw [last]
    rfl
  have plain := batch.plain p member n (List.mem_of_getLast? last)
  rw [name]
  exact ⟨plain.1, plain⟩

theorem stem_step : Path.Downward (e.sourceOf p).stem := by
  obtain ⟨some, plain⟩ := batch.source_some member
  have named := batch.named p member
  rw [List.mem_cons, List.mem_singleton, not_or] at named
  exact ⟨⟨Path.stem_some some, named.1, Path.stem_slash plain.2.2⟩, named.2⟩

theorem home_place : (e.homeOf output p).place = output.place ++ [(e.sourceOf p).stem] := (batch.stem_step member).place

theorem home_trail : (e.homeOf output p).trail = output.trail ++ [output.place] :=
  DiskAction.trail_concat (batch.stem_step member).parts

-- The output steps back only out of directories that are no projects.
theorem output_direct : ∀ q ∈ output.trail,
    q <+: output.place ∨ w.disk.item? q = some .directory ∧ ∀ p ∈ paths, ¬(e.homeOf output p).place <+: q := by
  intro q on
  have straight (down : Path.parentName ∉ output.parts) : q <+: output.place := by
    rw [Path.place_down down]
    exact Path.trail_down down on
  have common := batch.common p member
  unfold outputOf at common
  cases asked with
  | some place =>
    refine .inl (straight ?_)
    rw [← common]
    exact Path.resolve_notMem
  | none =>
    cases configured : e.configuration.output with
    | some place =>
      rw [configured] at common
      exact batch.direct rfl (configured.trans (congrArg some common)) q on
    | none =>
      rw [configured] at common
      refine .inl (straight ?_)
      rw [← common]
      exact fun up => Path.resolve_notMem (List.mem_of_mem_dropLast up)

theorem home_entered : ∀ q ∈ (e.homeOf output p).trail, ¬(e.homeOf output p).place <+: q := by
  intro q on leads
  have short : ¬q <+: output.place := by
    intro above
    have long := (leads.trans above).length_le
    rw [batch.home_place member, List.length_append, List.length_singleton] at long
    omega
  rw [batch.home_trail member] at on
  rcases List.mem_append.mp on with before | last
  · rcases batch.output_direct member q before with above | ⟨_, aside⟩
    · exact short above
    · exact aside p member leads
  · exact short (List.mem_singleton.mp last ▸ List.prefix_rfl)

theorem lone : Lone (e.homeOf output p) w := by
  refine ⟨batch.sound, ⟨fun j file heard filed => (batch.silent j file heard filed p member).2, fun store path => ?_⟩,
    batch.unstored, batch.home_entered member, fun q on => ?_⟩
  · rw [batch.unstored] at path
    cases path
  · have above : output.place <+: (e.homeOf output p).place := by
      rw [batch.home_place member]
      exact List.prefix_append _ _
    rw [batch.home_trail member] at on
    rcases List.mem_append.mp on with before | last
    · exact (batch.output_direct member q before).imp (fun leads => leads.trans above) And.left
    · rw [List.mem_singleton.mp last]
      exact .inl above

omit member in
theorem homes_beside (first : p ∈ paths) (second : r ∈ paths) (other : p ≠ r) :
    (e.sourceOf r).stem ≠ (e.sourceOf p).stem ∧ Unrelated (e.homeOf output p) (e.homeOf output r) := by
  have stems : (e.sourceOf r).stem ≠ (e.sourceOf p).stem := fun same =>
    other (List.inj_on_of_nodup_map batch.stems first second same.symm)
  have apart {p r : Path} (first : p ∈ paths) (second : r ∈ paths) (stems : (e.sourceOf r).stem ≠ (e.sourceOf p).stem) :
      ¬(e.homeOf output p).place <+: (e.homeOf output r).place := by
    intro leads
    have same := leads.eq_of_length (by rw [batch.home_place first, batch.home_place second]; simp)
    rw [batch.home_place first, batch.home_place second] at same
    have last : [(e.sourceOf p).stem] = [(e.sourceOf r).stem] := List.append_cancel_left same
    exact stems (List.singleton_inj.mp last).symm
  refine ⟨stems, apart first second stems, apart second first stems.symm, fun q on => ?_, fun q on => ?_⟩
  · rw [batch.home_trail first, ← batch.home_trail second] at on
    exact batch.home_entered second q on
  · rw [batch.home_trail second, ← batch.home_trail first] at on
    exact batch.home_entered first q on

theorem flat : e.Flat (e.sourceOf p) (e.homeOf output p) := by
  obtain ⟨some, plain⟩ := batch.source_some member
  have stem_some := Path.stem_some some
  have slash := Path.stem_slash plain.2.2
  have long {name : String} (long : 2 < name.length) : name ≠ Path.parentName := by
    rintro rfl
    exact absurd long (by decide)
  have project : e.projectName (e.sourceOf p) = (e.sourceOf p).stem ++ "." ++ "csproj" := by
    unfold projectName
    rw [batch.extension, String.append_assoc]
    rfl
  have usings : e.configuration.project.globalUsings ++ (e.sourceOf p).suffix
      = "GlobalUsings" ++ (e.sourceOf p).suffix := by rw [batch.usings]; rfl
  refine ⟨?_, ?_, ⟨plain, ?_⟩, ?_⟩
  · rw [project]
    refine ⟨Path.plain_dotted stem_some slash (by decide), long ?_⟩
    simp only [String.length_append]
    change 2 < _ + 1 + 6
    omega
  · have letters : 2 < ("GlobalUsings" ++ (e.sourceOf p).suffix).length := by
      rw [String.length_append]
      change 2 < 12 + _
      omega
    rw [usings]
    refine ⟨⟨fun empty => ?_, fun here => ?_, fun member => ?_⟩, long letters⟩
    · rw [empty] at letters
      exact absurd letters (by decide)
    · rw [here] at letters
      exact absurd letters (by decide)
    · rw [String.toList_append] at member
      rcases List.mem_append.mp member with front | back
      · exact absurd front (by decide)
      · exact Path.suffix_slash plain.2.2 back
  · intro up
    have listed := Path.name_mem some
    rw [up] at listed
    exact Path.resolve_notMem listed
  · rw [project]
    exact (Path.stem_join_exact stem_some slash (by decide)).mpr ⟨by decide, by decide⟩

end Batch

/-! ### One file after another -/

-- A source in the same place holds the same text, whatever else is there.
theorem textAt_congr {d d' : Disk} {source : Path} {content : ByteArray} (down : Path.parentName ∉ source.parts)
    (sound : d.Sound) (sound' : d'.Sound) (file : d.file? source.place = some content)
    (file' : d'.file? source.place = some content) : textAt d' source = textAt d source := by
  have directories {d : Disk} (sound : d.Sound) (file : d.file? source.place = some content) :
      ∀ q ∈ source.trail, q ≠ source.place → d.item? q = some .directory := by
    intro q on other
    have leads := Path.trail_down down on
    rw [← Path.place_down down] at leads
    obtain ⟨way, above⟩ := leads
    refine Disk.directory_above sound (by rw [above, Disk.file?_some.mp file]; rfl) ?_
    rintro rfl
    rw [List.append_nil] at above
    exact other above
  have item : d'.item? source.place = d.item? source.place := by
    rw [Disk.file?_some.mp file, Disk.file?_some.mp file']
  have located : d'.locate source = d.locate source := by
    refine Disk.locate_congr fun q on => ?_
    by_cases other : q = source.place
    · rw [other, item]
    · rw [directories sound file q on other, directories sound' file' q on other]
  have same := DiskAction.read_congr located item
  unfold textAt
  generalize (DiskAction.read source).run.run d = left, (DiskAction.read source).run.run d' = right at same
  obtain ⟨result, _⟩ := left
  obtain ⟨result', _⟩ := right
  obtain rfl : result' = result := same
  cases result' <;> rfl

-- A file that comes for the first time is put last.
theorem putOutcome_new {o : Outcome} {results : List (Path × Outcome)} (fresh : ∀ entry ∈ results, entry.1 ≠ p) :
    putOutcome p o results = results ++ [(p, o)] := by
  induction results with
  | nil => rfl
  | cons entry rest ih =>
    obtain ⟨other, old⟩ := entry
    unfold putOutcome
    rw [if_neg (fresh _ List.mem_cons_self), ih fun entry member => fresh entry (List.mem_cons_of_mem _ member)]
    rfl

-- A path that has led to a file still leads to no directory where the file is as it was.
theorem filesAt_file {content : ByteArray} (seen : w.disk.look (e.here ++ p) = .ok (some (.file content)))
    (file : v.disk.file? (e.here ++ p).place = some content) : (e.filesAt p).run runner v = (.ok [p], v) := by
  obtain ⟨_, _, _, fit⟩ := Disk.locate_exact.mp (Disk.look_some seen).1
  obtain ⟨item, found⟩ := Disk.look_fit (d := v.disk) fit
  have none : item ≠ some .directory := by
    rintro rfl
    have there := (Disk.look_some found).2
    rw [Disk.file?_some.mp file] at there
    cases there
  have looked : (Action.onDisk (DiskAction.isDirectory (e.here ++ p))).run runner v = (.ok false, v) := by
    rw [run_onDisk, DiskAction.run_isDirectory, found]
    dsimp only
    rw [decide_eq_false none]
  unfold filesAt
  rw [bind_ok looked]
  rfl

-- In the midst of a batch: what is still to be done finds what it would find at first, and what was done is as if it
-- had been done alone.
structure Underway (memory : σ → Place → μ) (e : Expansion) (output : Path) (paths todo done : List Path) (w : World σ)
    (last : Path → World σ) (v : World σ) : Prop where
  order : (todo ++ done).Perm paths
  todo : ∀ p ∈ todo, Twin memory (e.homeOf output p) (e.sourceOf p).stem w v
  done : ∀ p ∈ done, Twin memory (e.homeOf output p) (e.sourceOf p).stem (last p) v
  files : ∀ p ∈ paths, v.disk.file? (e.sourceOf p).place = w.disk.file? (e.sourceOf p).place
  outlets : SameOutlets w v
  others : ∀ name, (∀ p ∈ paths, name ≠ Text.ofString (e.sourceOf p).stem) →
    v.registry.timeless name = w.registry.timeless name

variable {outcome : Path → Outcome} {last : Path → World σ} {todo done : List Path}

theorem Flat.names {source : Path} (flat : e.Flat source directory) :
    ∀ name ∈ e.possibleNames source, Path.Downward name := by
  intro name listed
  unfold possibleNames at listed
  rcases List.mem_cons.mp listed with rfl | listed
  · exact flat.project
  rcases List.mem_cons.mp listed with rfl | listed
  · exact flat.usings
  rcases List.mem_cons.mp listed with rfl | listed
  · exact flat.copy
  rw [List.mem_singleton.mp listed]
  exact ⟨by decide, by decide⟩

-- The text of a source of the batch is the one that it had at first.
theorem Underway.reads (batch : Batch e asked output paths w) (underway : Underway memory e output paths todo done w last v)
    (member : p ∈ paths) (lone : Lone (e.homeOf output p) v) :
    textAt (opened (e.sourceOf p) v).disk (e.sourceOf p) = textAt (opened (e.sourceOf p) w).disk (e.sourceOf p) := by
  obtain ⟨content, file⟩ := batch.source_file member
  have silent {v : World σ} (outlets : SameOutlets w v) :
      (opened (e.sourceOf p) v).disk.file? (e.sourceOf p).place = v.disk.file? (e.sourceOf p).place := by
    refine hear_file fun j file heard filed => ?_
    rw [outlets.journal] at heard
    exact (batch.silent j file heard filed p member).1
  have sound {v : World σ} (lone : Lone (e.homeOf output p) v) : (opened (e.sourceOf p) v).disk.Sound :=
    (hear_beside lone.apart).sound lone.sound
  refine textAt_congr Path.resolve_notMem (sound (batch.lone member)) (sound lone) ((silent .refl).trans file) ?_
  rw [silent underway.outlets, underway.files p member, file]

theorem Batch.flat_twice (batch : Batch e asked output paths w) : paths.Nodup := batch.stems.of_map _

theorem Batch.home_is (batch : Batch e asked output paths w) (member : p ∈ paths) :
    e.homeOf output p = (e.outputOf p asked).join (e.sourceOf p).stem := by
  rw [batch.common p member]
  rfl

-- A file that is expanded in the midst of a batch.
section Taken

variable {o : Outcome} (loc : Local runner memory) (batch : Batch e asked output paths w) (member : p ∈ paths)
  (ran : (e.processFile p asked).run runner v = (.ok o, w'))

include batch member ran

theorem Batch.taken_steps :
    Steps (e.leeway (e.sourceOf p) (e.homeOf output p) (e.possibleNames (e.sourceOf p))) runner v w' :=
  ((processFileBy_walks rfl (batch.home_is member) fun _ _ => lists_possible).well ran).1

-- Of the registry only what is entered under its own name can have changed.
theorem Batch.taken_entry {name : Text} (other : name ≠ Text.ofString (e.sourceOf p).stem) :
    w'.registry.timeless name = v.registry.timeless name := by
  have entered := (batch.flat member).entered
  have spared := steps_spares (batch.taken_steps member ran) Registry.spared_refl name
  unfold Registry.timeless
  rcases spared with same | ⟨same, _⟩ | ⟨same, _⟩
  · rw [same]
  · exact absurd same other
  · rw [entered] at same
    exact absurd same other

include loc

-- Another project of the batch does not notice it.
theorem Batch.taken_unnoticed {start : World σ} (listed : r ∈ paths) (other : r ≠ p)
    (twin : Twin memory (e.homeOf output r) (e.sourceOf r).stem start v) :
    Twin memory (e.homeOf output r) (e.sourceOf r).stem start w' := by
  obtain ⟨stems, beside⟩ := batch.homes_beside listed member other
  have flat := batch.flat member
  have entered : (e.leeway (e.sourceOf p) (e.homeOf output p) (e.possibleNames (e.sourceOf p))).project.stem
      = (e.sourceOf p).stem := flat.entered
  exact steps_twin (l := e.leeway (e.sourceOf p) (e.homeOf output p) (e.possibleNames (e.sourceOf p))) loc flat.names
    beside stems (entered.trans_ne stems) twin (batch.taken_steps member ran)

theorem Batch.taken_sources (outlets : SameOutlets w v) (listed : r ∈ paths) :
    SameOutlets v w' ∧ w'.disk.file? (e.sourceOf r).place = v.disk.file? (e.sourceOf r).place := by
  have confines : (e.projectReach (e.sourceOf p) (e.homeOf output p)
      fun q => (e.homeOf output p).place <+: q).Confines runner :=
    confines_reach fun c g d q here outside => Disk.file?_congr (loc.aside fun below => outside (here ▸ below.1))
  have ends : Ends runner _ v (fun _ => True) (e.processFile p asked) :=
    processFileBy_ends rfl (batch.common p member).symm rfl confines
  have touched := (ends.well ran).1
  refine ⟨touched.outlets, touched.files _ ?_ ?_⟩
  · rintro (inside | ⟨name, possible, same, _⟩)
    · exact batch.outside r listed p member inside
    · refine batch.outside r listed p member ?_
      rw [same]
      exact ((batch.flat member).names name possible).below.1
  · rw [outlets.outlet]
    rintro (⟨j, file, heard, filed, same⟩ | ⟨store, path, _⟩)
    · exact (batch.silent j file heard filed r listed).1 same.symm
    · rw [batch.unstored] at path
      cases path

end Taken

-- One file more. The others do not notice it.
theorem Underway.next (loc : Local runner memory) (batch : Batch e asked output paths w)
    (underway : Underway memory e output paths (p :: todo) done w last v)
    (alone : (e.processFile p asked).run runner w = (.ok (outcome p), last p)) :
    ∃ v', (e.processFile p asked).run runner v = (.ok (outcome p), v') ∧
      Underway memory e output paths todo (p :: done) w last v' := by
  have listed {r : Path} (member : r ∈ (p :: todo) ++ done) : r ∈ paths := underway.order.mem_iff.mp member
  have member : p ∈ paths := listed List.mem_cons_self
  have once : ((p :: todo) ++ done).Nodup := underway.order.nodup_iff.mpr batch.flat_twice
  have away {r : Path} (other : r ∈ todo ++ done) : r ≠ p := fun same =>
    (List.nodup_cons.mp once).1 (same ▸ other)
  have twin := underway.todo p List.mem_cons_self
  have along : Along (Twin memory (e.homeOf output p) (e.sourceOf p).stem) runner w v (e.processFile p asked) :=
    processFileBy_along loc (batch.flat member) rfl (batch.home_is member) (underway.reads batch member twin.right) twin
  unfold Along at along
  rw [alone] at along
  obtain ⟨v', ran, after⟩ := along.ended
  have others {r : Path} {start : World σ} (other : r ∈ todo ++ done)
      (twin : Twin memory (e.homeOf output r) (e.sourceOf r).stem start v) :
      Twin memory (e.homeOf output r) (e.sourceOf r).stem start v' :=
    batch.taken_unnoticed loc member ran (listed (List.mem_cons_of_mem _ other)) (away other) twin
  refine ⟨v', ran, ?_⟩
  exact {
    order := List.perm_middle.trans underway.order
    todo := fun r other => others (List.mem_append_left _ other) (underway.todo r (List.mem_cons_of_mem _ other))
    done := fun r other => by
      rcases List.mem_cons.mp other with rfl | other
      · exact after
      · exact others (List.mem_append_right _ other) (underway.done r other)
    files := fun r listed => (batch.taken_sources loc member ran underway.outlets listed).2.trans
      (underway.files r listed)
    outlets := underway.outlets.trans (batch.taken_sources loc member ran underway.outlets member).1
    others := fun name apart => (batch.taken_entry member ran (apart p member)).trans (underway.others name apart) }

-- The rest of a batch, from wherever the files that were taken before have left it. The induction is on the files that
-- are left.
theorem Underway.rest (loc : Local runner memory) (batch : Batch e asked output paths w)
    (alone : ∀ p ∈ paths, (e.processFile p asked).run runner w = (.ok (outcome p), last p))
    (underway : Underway memory e output paths todo done w last v) (results : List (Path × Outcome))
    (fresh : ∀ p ∈ todo, ∀ entry ∈ results, entry.1 ≠ p) :
    ∃ v' all, (e.processFrom asked todo results).run runner v = (.ok (results ++ todo.map fun p => (p, outcome p)), v') ∧
      Underway memory e output paths [] all w last v' := by
  induction todo generalizing done v results with
  | nil =>
    rw [List.map_nil, List.append_nil]
    exact ⟨v, done, rfl, underway⟩
  | cons p rest ih =>
    have member : p ∈ paths := underway.order.mem_iff.mp List.mem_cons_self
    obtain ⟨content, seen⟩ := batch.files p member
    have file : v.disk.file? (e.here ++ p).place = some content := by
      rw [← sourceOf_place, underway.files p member, sourceOf_place]
      exact Disk.file?_some.mpr (Disk.look_some seen).2
    obtain ⟨next, ran, underway⟩ := underway.next loc batch (alone p member)
    have listed : ((p :: rest) ++ done).Nodup := (List.perm_middle.symm.trans underway.order).nodup_iff.mpr batch.flat_twice
    have new : putOutcome p (outcome p) results = results ++ [(p, outcome p)] :=
      putOutcome_new fun entry old => fresh p List.mem_cons_self entry old
    obtain ⟨v', all, went, finished⟩ := ih underway (results ++ [(p, outcome p)]) fun r other entry old => by
      rcases List.mem_append.mp old with old | old
      · exact fresh r (List.mem_cons_of_mem _ other) entry old
      · rintro rfl
        rw [List.mem_singleton.mp old] at other
        exact (List.nodup_cons.mp listed).1 (List.mem_append_left _ other)
    refine ⟨v', all, ?_, finished⟩
    have taken : (e.processFiles asked [p] results).run runner v = (.ok (results ++ [(p, outcome p)]), next) := by
      unfold processFiles
      rw [bind_ok ran, new]
      rfl
    unfold processFrom
    rw [bind_ok (filesAt_file seen file), bind_ok taken, went, List.map_cons, List.append_assoc]
    rfl

-- A batch in any order: each file has the outcome that it has alone from the start, its directory the content, and the
-- registry says of each project what it says then, but for the time. Nothing else is entered.
theorem batch_alone (loc : Local runner memory) (batch : Batch e asked output paths w)
    (alone : ∀ p ∈ paths, (e.processFile p asked).run runner w = (.ok (outcome p), last p)) {order : List Path}
    (reordered : order.Perm paths) :
    ∃ v, (e.processPaths order asked).run runner w = (.ok (order.map fun p => (p, outcome p)), v) ∧
      (∀ p ∈ paths, ∀ q, (e.homeOf output p).place <+: q → v.disk.item? q = (last p).disk.item? q) ∧
      (∀ p ∈ paths, v.registry.timeless (Text.ofString (e.sourceOf p).stem)
        = (last p).registry.timeless (Text.ofString (e.sourceOf p).stem)) ∧
      ∀ name, (∀ p ∈ paths, name ≠ Text.ofString (e.sourceOf p).stem) →
        v.registry.timeless name = w.registry.timeless name := by
  have begun : Underway memory e output paths order [] w last w := {
    order := by rwa [List.append_nil]
    todo := fun p other => .refl (batch.lone (reordered.mem_iff.mp other))
    done := nofun
    files := fun _ _ => rfl
    outlets := .refl
    others := fun _ _ => rfl }
  obtain ⟨v, all, ran, finished⟩ := begun.rest loc batch alone [] nofun
  have done {p : Path} (member : p ∈ paths) := finished.done p (finished.order.mem_iff.mpr member)
  exact ⟨v, ran, fun p member => (done member).inside, fun p member => (done member).entry, finished.others⟩

def rigPath : Path := ⟨.here, ["Rig.cs"]⟩

def toolPath : Path := ⟨.here, ["Tool.cs"]⟩

-- Two sources in one directory.
def yard : World Unit where
  disk := ⟨[(["work"], .directory), (["work", "Tool.cs"], .file toolText.toUTF8),
    (["work", "Rig.cs"], .file toolText.toUTF8)]⟩
  now := default
  git := ()
  calls := []
  journal := none
  console := []
  registry := .empty none

-- The program works everywhere but in the directory of one of the two projects, and changes no file.
def picky : Runner Unit := fun c g d =>
  if c.directory.place = ["work", "Rig"] then (.failed (.code 128) none, g, d) else (.output "1\n", g, d)

theorem picky_still {c : Call} {g : Unit} {d : Disk} : (picky c g d).2.2 = d := by
  unfold picky
  split <;> rfl

theorem picky_local : Local picky fun _ _ => () where
  same := by
    intro c g g' d d' _ _ _ _ _ inside _
    rw [picky_still, picky_still]
    refine ⟨?_, rfl, inside⟩
    unfold picky
    split <;> rfl
  aside := by
    intro c g d q _
    rw [picky_still]
  apart := fun _ _ => rfl
  sound := by
    intro c g d sound
    rwa [picky_still]

theorem yard_batch : Batch atBench none ⟨.root, ["work"]⟩ [toolPath, rigPath] yard where
  extension := rfl
  usings := rfl
  common := by decide
  files := by
    intro p member
    refine ⟨toolText.toUTF8, ?_⟩
    revert p
    decide +kernel
  plain := by decide
  stems := by decide
  named := by decide
  outside := by decide
  direct := nofun
  sound := Disk.sound_of_items (by decide +kernel)
  unstored := rfl
  silent := nofun

-- The one project is committed although the other fails before it.
theorem batch_alone_yard : ∃ v,
    (atBench.processPaths [rigPath, toolPath] none).run picky yard
      = (.ok [(rigPath, .nothing), (toolPath, .committed ⟨"1", "1"⟩)], v) ∧
    v.registry.timeless (Text.ofString "Tool")
      = some (Text.ofString "Tool", Text.ofString "/work/Tool/Tool.csproj") := by
  have tool : ((atBench.processFile toolPath none).run picky yard).1 = .ok (.committed ⟨"1", "1"⟩) ∧
      ((atBench.processFile toolPath none).run picky yard).2.registry.timeless (Text.ofString "Tool")
        = some (Text.ofString "Tool", Text.ofString "/work/Tool/Tool.csproj") := by decide +kernel
  have rig : ((atBench.processFile rigPath none).run picky yard).1 = .ok .nothing := by decide +kernel
  have alone : ∀ p ∈ [toolPath, rigPath], (atBench.processFile p none).run picky yard
      = (.ok (if p = rigPath then .nothing else .committed ⟨"1", "1"⟩), ((atBench.processFile p none).run picky yard).2) :=
    List.forall_mem_cons.mpr ⟨ok_of_result tool.1, List.forall_mem_cons.mpr ⟨ok_of_result rig, nofun⟩⟩
  obtain ⟨v, ran, _, entered, _⟩ := batch_alone picky_local yard_batch alone (List.Perm.swap toolPath rigPath [])
  exact ⟨v, ran, (entered toolPath List.mem_cons_self).trans tool.2⟩

end Expansion
end InlineProject
