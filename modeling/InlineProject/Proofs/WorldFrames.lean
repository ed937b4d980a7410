import InlineProject.Proofs.ActionRun
import InlineProject.Proofs.VersionControl
import InlineProject.Registry.Registration
/-!
What an action leaves alone. The directory of a project, the journal and the file of the registry lie
apart: what is written to the one does not touch the others.
-/

namespace InlineProject

open InlineProject.Action InlineProject.Git
open InlineProject.DiskAction (Guarded)

variable {σ : Type} {runner : Runner σ} {directory p : Path} {home q : Place} {d d' : Disk}
  {w middle w' : World σ}

/-! ### Places -/

theorem Direct.aside (direct : Direct home p) (apart : ¬Below home p.place) :
    ∀ q ∈ p.trail, ¬Below home q := by
  intro q on below
  have leads := direct q on below
  refine apart ⟨below.1.trans leads, fun same => below.2 ?_⟩
  rw [same] at leads
  exact leads.eq_of_length_le below.1.length_le

theorem not_below_home : ¬Below home home := fun below => below.2 rfl

theorem not_below_dropLast (apart : ¬Below home q) : ¬Below home q.dropLast := by
  rintro ⟨leads, other⟩
  refine apart ⟨leads.trans q.dropLast_prefix, ?_⟩
  rintro rfl
  exact other (leads.eq_of_length_le q.dropLast_prefix.length_le).symm

theorem metadata_inside : home <+: metadataPlace home := List.prefix_append _ _

theorem place_metadata : (directory.join metadataName).place = metadataPlace directory.place := by
  have joined : directory.join metadataName = ⟨directory.anchor, directory.parts ++ [metadataName]⟩ := rfl
  unfold Path.place
  rw [joined, Path.endFrom_append]
  change Path.stepFrom _ metadataName = _
  unfold Path.stepFrom
  rw [if_neg (by decide)]
  rfl

theorem unkept_of_aside (apart : ¬Below home q) : Unkept home q := by
  intro kept
  refine apart ⟨metadata_inside.trans kept, ?_⟩
  rintro rfl
  have long := kept.length_le
  simp only [metadataPlace, List.length_append, List.length_singleton] at long
  omega

theorem metadata_deep : metadataPlace home ≠ [] :=
  List.append_ne_nil_of_right_ne_nil _ (List.cons_ne_nil _ _)

theorem unkept_append {way : Place} (free : way.head? ≠ some metadataName) :
    Unkept home (home ++ way) := by
  intro kept
  obtain ⟨more, same⟩ := (List.prefix_append_right_inj home).mp kept
  rw [← same] at free
  exact free rfl

theorem unkept_prefix {way : Place} (free : way.head? ≠ some metadataName)
    (leads : q <+: home ++ way) : Unkept home q := fun kept => unkept_append free (kept.trans leads)

-- Where a file of a project is written: everything on the way to it is outside of the directory, or
-- leads down to it.
theorem guarded_below {way : Place} (direct : Direct home p) (ends : p.place = home ++ way)
    (free : way.head? ≠ some metadataName) : Guarded (Unkept home) p := by
  refine ⟨fun q on => ?_, ?_, ?_⟩
  · by_cases below : Below home q
    · exact unkept_prefix free (ends ▸ direct q on below)
    · exact unkept_of_aside below
  · rw [ends]
    exact unkept_append free
  · exact unkept_prefix free (ends ▸ p.place.dropLast_prefix)

theorem guarded_aside (direct : Direct home p) (apart : ¬Below home p.place) :
    Guarded (fun q => ¬Below home q) p :=
  ⟨direct.aside apart, apart, not_below_dropLast apart⟩

/-! ### Working trees -/

namespace Git

theorem workingTree_exact {way : Place} {content : ByteArray} :
    workingTree d home way = some content ↔
      way.head? ≠ some metadataName ∧ d.item? (home ++ way) = some (.file content) := by
  unfold workingTree
  by_cases own : way.head? = some metadataName
  · simp [own]
  · cases d.item? (home ++ way) with
    | none => simp [own]
    | some item => cases item <;> simp [own]

theorem workingTree_congr
    (same : ∀ way, way.head? ≠ some metadataName → d'.item? (home ++ way) = d.item? (home ++ way)) :
    workingTree d' home = workingTree d home := by
  funext way
  unfold workingTree
  by_cases own : way.head? = some metadataName
  · rw [if_pos own, if_pos own]
  · rw [if_neg own, if_neg own, same way own]

theorem Quiet.workingTree (quiet : Quiet home d d') : workingTree d' home = workingTree d home :=
  workingTree_congr fun way free => quiet (home ++ way) (unkept_append free)

theorem Quiet.directories (quiet : Quiet home d d') : Disk.SameDirectories (Unkept home) d d' := by
  intro q unkept
  rw [quiet q unkept]

theorem workingTree_put {way : Place} {content : ByteArray} (inside : home ++ way ≠ [])
    (free : way.head? ≠ some metadataName) :
    workingTree (d.put (home ++ way) (.file content)) home
      = (workingTree d home).put way content := by
  funext other
  unfold Tree.put workingTree
  rw [Disk.item?_put _ _ _ _ inside]
  by_cases same : other = way
  · subst same
    simp [free]
  · have apart : home ++ other ≠ home ++ way := fun joined => same (List.append_cancel_left joined)
    rw [if_neg apart, if_neg same]

end Git

/-! ### Worlds -/

-- The journal writes, and the registry is kept, away from the directory.
structure Apart (home : Place) (w : World σ) : Prop where
  journal : ∀ j p, w.journal = some j → j.file = some p → ¬home <+: p.place
  store : ∀ p, w.registry.path = some p → Direct home p ∧ ¬home <+: p.place

-- The later of two worlds writes its journal and keeps its registry where the former does.
structure SameOutlets (w w' : World σ) : Prop where
  journal : w'.journal = w.journal
  path : w'.registry.path = w.registry.path

theorem SameOutlets.refl : SameOutlets w w := ⟨rfl, rfl⟩

theorem SameOutlets.trans (first : SameOutlets w middle) (second : SameOutlets middle w') :
    SameOutlets w w' :=
  ⟨second.journal.trans first.journal, second.path.trans first.path⟩

theorem Apart.outlets (apart : Apart home w) (same : SameOutlets w w') : Apart home w' := by
  refine ⟨fun j p heard => ?_, fun p kept => ?_⟩
  · rw [same.journal] at heard
    exact apart.journal j p heard
  · rw [same.path] at kept
    exact apart.store p kept

-- What happens beside a directory: files are written elsewhere, and no directory comes or goes.
structure Beside (home : Place) (w w' : World σ) : Prop where
  git : w'.git = w.git
  outlets : SameOutlets w w'
  inside : ∀ q, home <+: q → w'.disk.item? q = w.disk.item? q
  directories : Disk.SameDirectories (fun _ => True) w.disk w'.disk
  sound : w.disk.Sound → w'.disk.Sound

theorem Beside.refl : Beside home w w := ⟨rfl, .refl, fun _ _ => rfl, fun _ _ => .rfl, id⟩

theorem Beside.trans (first : Beside home w middle) (second : Beside home middle w') :
    Beside home w w' :=
  ⟨second.git.trans first.git, first.outlets.trans second.outlets,
    fun q inside => (second.inside q inside).trans (first.inside q inside),
    first.directories.trans second.directories, fun sound => second.sound (first.sound sound)⟩

-- A file is written elsewhere, and the world is otherwise the same.
theorem beside_put {content : ByteArray} (outside : ¬home <+: q)
    (free : w.disk.item? q ≠ some .directory)
    (parent : w.disk.Sound → w.disk.item? q.dropLast = some .directory)
    (git : w'.git = w.git) (outlets : SameOutlets w w')
    (written : w'.disk = w.disk.put q (.file content)) : Beside home w w' := by
  have inside : q ≠ [] := by
    rintro rfl
    exact free rfl
  refine ⟨git, outlets, fun r below => ?_, ?_, fun sound => ?_⟩
  · have other : r ≠ q := by
      rintro rfl
      exact outside below
    rw [written, Disk.item?_put _ _ _ _ inside, if_neg other]
  · rw [written]
    exact Disk.sameDirectories_put free
  · rw [written]
    exact Disk.put_sound sound inside (parent sound) (.inl free)

/-! ### Notes -/

theorem SameOutlets.hear {n : Note} : SameOutlets w (hear n w) :=
  ⟨hear_journal, by rw [hear_registry]⟩

-- A note leaves the disk as it is, or it is added to the file of the journal.
theorem Action.hear_cases {n : Note} : (hear n w).disk = w.disk ∨
    ∃ j p old content, w.journal = some j ∧ j.file = some p ∧ w.disk.item? p.place = some (.file old) ∧
      (hear n w).disk = w.disk.put p.place (.file content) := by
  unfold hear
  split
  · exact .inl rfl
  · rename_i j heard
    split
    · dsimp only
      split
      · rename_i p filed
        unfold appendNote
        split
        · rename_i place located
          obtain rfl := Disk.locate_place located
          split
          · rename_i old there
            exact .inr ⟨j, p, old, _, heard, filed, there, rfl⟩
          · exact .inl rfl
        · exact .inl rfl
      · exact .inl rfl
    · exact .inl rfl

theorem hear_beside {n : Note} (apart : Apart home w) : Beside home w (hear n w) := by
  rcases hear_cases (n := n) (w := w) with still | ⟨j, p, old, content, heard, filed, there, written⟩
  · refine ⟨hear_git, .hear, ?_, ?_, ?_⟩ <;> rw [still]
    · exact fun _ _ => rfl
    · exact fun _ _ => .rfl
    · exact id
  · refine beside_put (apart.journal j p heard filed) (by rw [there]; nofun) (fun sound => sound p.place ?_)
      hear_git .hear written
    rw [there]
    rfl

end InlineProject
