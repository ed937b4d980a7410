import InlineProject.Proofs.FailedRun
import InlineProject.Proofs.MadeDirectories
import InlineProject.Proofs.ProjectPlaces
import InlineProject.Proofs.SideBySide
/-!
Worlds that a project cannot tell apart. It sees its own directory, the way to it, what the version control program
remembers of it and its own entry in the registry; all else may differ.
-/

namespace InlineProject

open InlineProject.Action
open InlineProject.DiskAction (Grown OnWay Writable run_write run_pathExists)

variable {σ μ α : Type}

/-! ### The registry -/

namespace Registry

variable {r : Registry} {name other : Text} {file : String} {now : DateTime}

-- What a registry says of a name, but for when it was entered.
def timeless (r : Registry) (name : Text) : Option (Text × Text) := (r.find? name).map fun p => (p.name, p.projectFile)

theorem timeless_isSome : (r.timeless name).isSome = (r.find? name).isSome := Option.isSome_map

theorem timeless_put : (r.put name file now).2.timeless other
    = if name = other then some (name, Text.ofString file) else r.timeless other := by
  unfold timeless
  rw [find?_put]
  split <;> rfl

theorem timeless_remove : (r.remove name).2.timeless other = if other = name then none else r.timeless other := by
  unfold timeless
  rw [find?_remove]
  split <;> rfl

end Registry

/-! ### Files -/

-- A name of a single step down.
structure Path.Downward (name : String) : Prop where
  plain : Path.Plain name
  other : name ≠ Path.parentName

namespace Path.Downward

variable {directory : Path} {name : String} (step : Path.Downward name)

include step

theorem parts : (directory.join name).parts = directory.parts ++ [name] := by
  unfold Path.join
  rw [Path.ofString_plain step.plain, Git.append_relative rfl]

theorem place : (directory.join name).place = directory.place ++ [name] := Path.join_plain step.plain step.other

theorem below : Below directory.place (directory.join name).place := by
  rw [step.place]
  exact below_append (List.cons_ne_nil _ _)

end Path.Downward

-- What is read from a path is said by the way to its place and by what is there.
theorem DiskAction.read_congr {d d' : Disk} {p : Path} (located : d'.locate p = d.locate p)
    (item : d'.item? p.place = d.item? p.place) : ((read p).run.run d').1 = ((read p).run.run d).1 := by
  rw [run_read, run_read, located]
  cases found : d.locate p with
  | error cause => rfl
  | ok place =>
    obtain rfl := Disk.locate_place found
    dsimp only
    rw [item]
    rcases d.item? p.place with _ | _ | _ <;> rfl

-- Whether a file can be written, and why not, is said by the way to it, its place and the directory around it.
theorem DiskAction.write_congr {d d' : Disk} {p : Path} {content : ByteArray} (located : d'.locate p = d.locate p)
    (item : d'.item? p.place = d.item? p.place) (parent : d'.item? p.place.dropLast = d.item? p.place.dropLast) :
    ((write p content).run.run d').1 = ((write p content).run.run d).1 ∧
      (((write p content).run.run d).2 = d ∧ ((write p content).run.run d').2 = d' ∨
        Writable d p p.place ∧ Writable d' p p.place ∧
          ((write p content).run.run d).2 = d.put p.place (.file content) ∧
          ((write p content).run.run d').2 = d'.put p.place (.file content)) := by
  by_cases writable : Writable d p p.place
  · have writable' : Writable d' p p.place := by
      refine ⟨located.trans writable.located, ?_, parent.trans writable.parent⟩
      rw [item]
      exact writable.noDirectory
    rw [write_of_writable writable, write_of_writable writable']
    exact ⟨rfl, .inr ⟨writable, writable', rfl, rfl⟩⟩
  · have unwritten {d : Disk} (other : ¬Writable d p p.place) : ((write p content).run.run d).2 = d := by
      have ran : (write p content).run.run d = (((write p content).run.run d).1, ((write p content).run.run d).2) := rfl
      rcases DiskAction.write_cases ran with ⟨_, still⟩ | ⟨_, written, _⟩
      · exact still
      · exact absurd written other
    have unwritable : ¬Writable d' p p.place := fun written => by
      refine writable ⟨located ▸ written.located, ?_, parent ▸ written.parent⟩
      rw [← item]
      exact written.noDirectory
    refine ⟨?_, .inl ⟨unwritten writable, unwritten unwritable⟩⟩
    rw [run_write, run_write, located]
    cases found : d.locate p with
    | error cause => rfl
    | ok place =>
      obtain rfl := Disk.locate_place found
      dsimp only
      rw [item, parent]
      rcases d.item? p.place with _ | _ | _ <;> rcases d.item? p.place.dropLast with _ | _ | _ <;> rfl

/-! ### Programs that keep to their directory -/

-- What the program answers in a directory, and what it makes of it, depends on what is in it and on what the program
-- remembers of it. It changes only what is below, and remembers as before what concerns other directories.
structure Git.Local (runner : Git.Runner σ) (memory : σ → Place → μ) : Prop where
  same {c : Git.Call} {g g' : σ} {d d' : Disk} (sound : d.Sound) (sound' : d'.Sound)
    (located : d.locate c.directory = .ok c.directory.place) (located' : d'.locate c.directory = .ok c.directory.place)
    (present : (d.item? c.directory.place).isSome = true)
    (inside : ∀ q, c.directory.place <+: q → d'.item? q = d.item? q)
    (known : memory g' c.directory.place = memory g c.directory.place) :
    (runner c g' d').1 = (runner c g d).1 ∧
      memory (runner c g' d').2.1 c.directory.place = memory (runner c g d).2.1 c.directory.place ∧
      ∀ q, c.directory.place <+: q → (runner c g' d').2.2.item? q = (runner c g d).2.2.item? q
  aside {c : Git.Call} {g : σ} {d : Disk} {q : Place} (outside : ¬Below c.directory.place q) :
    (runner c g d).2.2.item? q = d.item? q
  apart {c : Git.Call} {g : σ} {d : Disk} {other : Place} (above : ¬other <+: c.directory.place)
    (beside : ¬c.directory.place <+: other) : memory (runner c g d).2.1 other = memory g other
  sound {c : Git.Call} {g : σ} {d : Disk} (sound : d.Sound) : (runner c g d).2.2.Sound

/-! ### What a project sees -/

-- A world in which a directory can be entered from outside, no registry is written and the journal is elsewhere. The
-- path steps back only out of directories that are there.
structure Lone (directory : Path) (w : World σ) : Prop where
  sound : w.disk.Sound
  apart : Apart directory.place w
  unstored : w.registry.path = none
  entered : ∀ q ∈ directory.trail, ¬directory.place <+: q
  steps : ∀ q ∈ directory.trail, q <+: directory.place ∨ w.disk.item? q = some .directory

-- From one world to a later one nothing has changed that the project sees. Directories may have come on the way to it.
structure Unnoticed (memory : σ → Place → μ) (directory : Path) (base : String) (w v : World σ) : Prop where
  outlets : SameOutlets w v
  sound : w.disk.Sound → v.disk.Sound
  inside : ∀ q, directory.place <+: q → v.disk.item? q = w.disk.item? q
  way : ∀ q ∈ directory.trail, (v.disk.file? q).isSome = (w.disk.file? q).isSome
  steps : ∀ q ∈ directory.trail, w.disk.item? q = some .directory → v.disk.item? q = some .directory
  known : memory v.git directory.place = memory w.git directory.place
  entry : v.registry.timeless (Text.ofString base) = w.registry.timeless (Text.ofString base)

-- Two worlds that the project cannot tell apart, whichever of the directories above it are there.
structure Twin (memory : σ → Place → μ) (directory : Path) (base : String) (w w' : World σ) : Prop where
  left : Lone directory w
  right : Lone directory w'
  inside : ∀ q, directory.place <+: q → w'.disk.item? q = w.disk.item? q
  way : ∀ q ∈ directory.trail, (w'.disk.file? q).isSome = (w.disk.file? q).isSome
  known : memory w'.git directory.place = memory w.git directory.place
  entry : w'.registry.timeless (Text.ofString base) = w.registry.timeless (Text.ofString base)

-- The directory is there, and the path leads to it.
structure Homed (memory : σ → Place → μ) (directory : Path) (base : String) (w w' : World σ) : Prop
    extends Twin memory directory base w w' where
  located : w.disk.locate directory = .ok directory.place
  present : (w.disk.item? directory.place).isSome = true

variable {memory : σ → Place → μ} {directory p : Path} {base name : String} {runner : Git.Runner σ}
  {w v w' v' : World σ} {d : Disk} {n m : Note}

theorem Unnoticed.refl : Unnoticed memory directory base w w :=
  ⟨.refl, id, fun _ _ => rfl, fun _ _ => rfl, fun _ _ => id, rfl, rfl⟩

theorem Lone.onward (lone : Lone directory w) (unnoticed : Unnoticed memory directory base w v) : Lone directory v :=
  ⟨unnoticed.sound lone.sound, lone.apart.outlets unnoticed.outlets, unnoticed.outlets.path.trans lone.unstored,
    lone.entered, fun q on => (lone.steps q on).imp_right (unnoticed.steps q on)⟩

-- Where the directory is there so are all on the way to it.
theorem Lone.reaches (lone : Lone directory w) (present : (w.disk.item? directory.place).isSome = true) :
    ∀ q ∈ directory.trail, w.disk.item? q = some .directory := by
  intro q on
  rcases lone.steps q on with ⟨way, above⟩ | there
  · refine Disk.directory_above lone.sound (by rwa [above]) ?_
    rintro rfl
    rw [List.append_nil] at above
    exact lone.entered q on (above ▸ List.prefix_rfl)
  · exact there

theorem hear_unnoticed (lone : Lone directory w) : Unnoticed memory directory base w (hear n w) := by
  have beside : Beside directory.place w (hear n w) := hear_beside lone.apart
  refine ⟨beside.outlets, beside.sound, beside.inside, fun q _ => ?_,
    fun q _ there => (beside.directories q trivial).mpr there, by rw [beside.git], by rw [hear_registry]⟩
  rcases hear_cases (n := n) (w := w) with still | ⟨j, p, old, content, _, _, file, written⟩
  · rw [still]
  · have deep := Disk.inside_of_file file
    rw [written]
    by_cases same : q = p.place
    · rw [same, Disk.file?_some.mpr file, Disk.file?_some.mpr (by rw [Disk.item?_put _ _ _ _ deep, if_pos rfl])]
      rfl
    · rw [Disk.file?_put deep same]

namespace Twin

theorem refl (lone : Lone directory w) : Twin memory directory base w w :=
  ⟨lone, lone, fun _ _ => rfl, fun _ _ => rfl, rfl, rfl⟩

theorem onward (twin : Twin memory directory base w w') (first : Unnoticed memory directory base w v)
    (second : Unnoticed memory directory base w' v') : Twin memory directory base v v' := by
  refine ⟨twin.left.onward first, twin.right.onward second, fun q inside => ?_, fun q on => ?_, ?_, ?_⟩
  · rw [second.inside q inside, first.inside q inside, twin.inside q inside]
  · rw [second.way q on, first.way q on, twin.way q on]
  · rw [second.known, first.known, twin.known]
  · rw [second.entry, first.entry, twin.entry]

theorem hear (twin : Twin memory directory base w w') :
    Twin memory directory base (hear n w) (Action.hear m w') :=
  twin.onward (hear_unnoticed twin.left) (hear_unnoticed twin.right)

-- The registries become others that say the same of the project.
theorem enrolled {r r' : Registry} (twin : Twin memory directory base w w') (path : r.path = none) (path' : r'.path = none)
    (entry : r'.timeless (Text.ofString base) = r.timeless (Text.ofString base)) :
    Twin memory directory base { w with registry := r } { w' with registry := r' } := by
  have lone {v : World σ} {r : Registry} (lone : Lone directory v) (path : r.path = none) :
      Lone directory { v with registry := r } :=
    ⟨lone.sound, lone.apart.outlets ⟨rfl, path.trans lone.unstored.symm⟩, path, lone.entered, lone.steps⟩
  exact ⟨lone twin.left path, lone twin.right path', twin.inside, twin.way, twin.known, entry⟩

end Twin

namespace Homed

variable (homed : Homed memory directory base w w')

include homed

theorem present' : (w'.disk.item? directory.place).isSome = true := by
  rw [homed.inside _ List.prefix_rfl]
  exact homed.present

theorem directories : ∀ q ∈ directory.trail,
    w.disk.item? q = some .directory ∧ w'.disk.item? q = some .directory :=
  fun q on => ⟨homed.left.reaches homed.present q on, homed.right.reaches homed.present' q on⟩

theorem located' : w'.disk.locate directory = .ok directory.place := by
  obtain ⟨clean, _, _, fit⟩ := Disk.locate_exact.mp homed.located
  exact Disk.locate_exact.mpr ⟨clean, rfl, fun q on => (homed.directories q on).2, fit⟩

theorem onward (first : Unnoticed memory directory base w v) (second : Unnoticed memory directory base w' v') :
    Homed memory directory base v v' := by
  refine ⟨homed.toTwin.onward first second, ?_, ?_⟩
  · obtain ⟨clean, _, left, fit⟩ := Disk.locate_exact.mp homed.located
    exact Disk.locate_exact.mpr ⟨clean, rfl, fun q on => first.steps q on (left q on), fit⟩
  · rw [first.inside _ List.prefix_rfl]
    exact homed.present

theorem hear : Homed memory directory base (Action.hear n w) (Action.hear m w') :=
  homed.onward (hear_unnoticed homed.left) (hear_unnoticed homed.right)

-- Both worlds change, below the directory only and in the same way.
theorem renewed (outlets : SameOutlets w v) (outlets' : SameOutlets w' v') (sound : v.disk.Sound) (sound' : v'.disk.Sound)
    (aside : ∀ q, ¬Below directory.place q → v.disk.item? q = w.disk.item? q)
    (aside' : ∀ q, ¬Below directory.place q → v'.disk.item? q = w'.disk.item? q)
    (inside : ∀ q, directory.place <+: q → v'.disk.item? q = v.disk.item? q)
    (known : memory v'.git directory.place = memory v.git directory.place)
    (entry : v'.registry.timeless (Text.ofString base) = v.registry.timeless (Text.ofString base)) :
    Homed memory directory base v v' := by
  have outside : ∀ q ∈ directory.trail, ¬Below directory.place q :=
    fun q on below => homed.left.entered q on below.1
  have still : ∀ q ∈ directory.trail, v.disk.item? q = w.disk.item? q := fun q on => aside q (outside q on)
  have still' : ∀ q ∈ directory.trail, v'.disk.item? q = w'.disk.item? q := fun q on => aside' q (outside q on)
  refine ⟨⟨⟨sound, homed.left.apart.outlets outlets, outlets.path.trans homed.left.unstored, homed.left.entered,
      fun q on => .inr ?_⟩, ⟨sound', homed.right.apart.outlets outlets', outlets'.path.trans homed.right.unstored,
      homed.left.entered, fun q on => .inr ?_⟩, inside, fun q on => ?_, known, entry⟩, ?_, ?_⟩
  · rw [still q on, (homed.directories q on).1]
  · rw [still' q on, (homed.directories q on).2]
  · rw [Disk.file?_congr (still q on), Disk.file?_congr (still' q on), homed.way q on]
  · rw [Disk.locate_congr still, homed.located]
  · rw [aside _ not_below_home]
    exact homed.present

/-! ### What is done in the directory -/

theorem asked (loc : Git.Local runner memory) {c : Git.Call} (here : c.directory = directory) :
    Along (Homed memory directory base) runner w w' (Action.callGit c) := by
  subst here
  obtain ⟨same, known, inside⟩ := loc.same (c := c) homed.left.sound homed.right.sound homed.located
    homed.located' homed.present homed.inside homed.known
  exact .callGit same (homed.renewed ⟨rfl, rfl⟩ ⟨rfl, rfl⟩ (loc.sound homed.left.sound)
    (loc.sound homed.right.sound) (fun q outside => loc.aside outside) (fun q outside => loc.aside outside) inside
    known homed.entry)

variable (step : Path.Downward name)

include step

theorem trail_same : ∀ q ∈ (directory.join name).trail, w'.disk.item? q = w.disk.item? q := by
  intro q on
  rw [DiskAction.trail_concat step.parts] at on
  rcases List.mem_append.mp on with before | last
  · rw [(homed.directories q before).1, (homed.directories q before).2]
  · rw [List.mem_singleton.mp last]
    exact homed.inside _ List.prefix_rfl

theorem looking : w'.disk.look (directory.join name) = w.disk.look (directory.join name) :=
  Disk.look_congr (homed.trail_same step) (homed.inside _ step.below.1)

theorem seen : Along (Homed memory directory base) runner w w'
    (Action.onDisk (DiskAction.pathExists (directory.join name))) := by
  unfold Along
  rw [Scaffold.pathExists_run, Scaffold.pathExists_run, homed.looking step]
  cases w.disk.look (directory.join name) with
  | ok item => exact .well homed
  | error e => exact .failed rfl homed

theorem wrote {content : ByteArray} : Along (Homed memory directory base) runner w w'
    (Action.onDisk (DiskAction.write (directory.join name) content)) := by
  obtain ⟨same, still | ⟨writable, writable', put, put'⟩⟩ := @DiskAction.write_congr _ _ _ content
    (Disk.locate_congr (homed.trail_same step)) (homed.inside _ step.below.1)
    (homed.inside _ (by rw [step.place, List.dropLast_concat]))
  · exact .onDisk same (by rwa [still.1, still.2])
  · refine .onDisk same ?_
    rw [put, put']
    have deep := DiskAction.writable_inside writable
    have aside {d : Disk} {q : Place} (outside : ¬Below directory.place q) :
        (d.put (directory.join name).place (.file content)).item? q = d.item? q := by
      rw [Disk.item?_put _ _ _ _ deep, if_neg]
      rintro rfl
      exact outside step.below
    refine homed.renewed ⟨rfl, rfl⟩ ⟨rfl, rfl⟩ (writable.put_sound homed.left.sound)
      (writable'.put_sound homed.right.sound) (fun q => aside) (fun q => aside) (fun q inside => ?_)
      homed.known homed.entry
    rw [Disk.item?_put _ _ _ _ deep, Disk.item?_put _ _ _ _ deep, homed.inside q inside]

end Homed
end InlineProject
