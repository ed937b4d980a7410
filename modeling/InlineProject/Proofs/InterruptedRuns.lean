import InlineProject.Proofs.ProjectLayout
/-!
Runs in which calls of the version control program come to nothing at any point. Whatever they leave behind, the files
of the project can still be written, and what is in the directory is a repository or none.
-/

namespace InlineProject

open InlineProject.Action InlineProject.Git
open InlineProject.DiskAction (Grown Writable writable_inside)

namespace Git

variable {σ : Type}

-- What no call does, whether it is answered or fails. It leaves alone what lies outside of the directory, and makes no
-- directories in it but for tracked files. A repository stays one, and does not lose all its commits.
structure Gentle (runner : Runner σ) (k : Keeping σ) : Prop where
  outside {c : Call} {g : σ} {d : Disk} {q : Place} (aside : ¬Below c.directory.place q) :
    (runner c g d).2.2.item? q = d.item? q
  directories {c : Call} {g : σ} {d : Disk} {way : Place} (sound : d.Sound) (free : way.head? ≠ some metadataName)
    (stands : (runner c g d).2.2.item? (c.directory.place ++ way) = some .directory) :
    d.item? (c.directory.place ++ way) = some .directory ∨
      ∃ more, more ≠ [] ∧ (k.tree g d c.directory.place (way ++ more)).isSome = true
  whole {c : Call} {g : σ} {d : Disk}
    (kept : ((runner c g d).2.2.item? (metadataPlace c.directory.place)).isSome = true) :
    (d.item? (metadataPlace c.directory.place)).isSome = true ∨
      (k.archive (runner c g d).2.1 (runner c g d).2.2 c.directory.place).isSome = true
  stays {c : Call} {g : σ} {d : Disk} {a : Archive} (archived : k.archive g d c.directory.place = some a) :
    ∃ b, k.archive (runner c g d).2.1 (runner c g d).2.2 c.directory.place = some b ∧
      (a.commits ≠ [] → b.commits ≠ [])

-- A program every call of which does what it does in another one, or nothing at all, whatever is replied.
def Falters (k : Keeping σ) (runner other : Runner σ) : Prop := ∀ c g d,
  ((other c g d).2.2 = d ∧ ∀ home, k.archive (other c g d).2.1 d home = k.archive g d home) ∨
  ((other c g d).2.2 = (runner c g d).2.2 ∧
    ∀ home, k.archive (other c g d).2.1 (runner c g d).2.2 home = k.archive (runner c g d).2.1 (runner c g d).2.2 home)

theorem falters_of_cases {k : Keeping σ} {runner other : Runner σ}
    (answers : ∀ c g d, (other c g d).2 = (g, d) ∨ other c g d = runner c g d) : Falters k runner other := by
  intro c g d
  rcases answers c g d with nothing | all
  · rw [nothing]
    exact .inl ⟨rfl, fun _ => rfl⟩
  · rw [all]
    exact .inr ⟨rfl, fun _ => rfl⟩

theorem falters_itself {k : Keeping σ} {runner : Runner σ} : Falters k runner runner :=
  falters_of_cases fun _ _ _ => .inr rfl

end Git

namespace Expansion

variable {σ : Type} {runner other : Runner σ} {k : Keeping σ} {l : Leeway} {e : Expansion} {source directory file : Path}
  {w middle w' : World σ} {name : String} {names : List String} {asked : Option Path} {parse : String → Source.Unit}

/-! ### Names -/

-- A name that leads from a directory to a file in it.
structure Single (name : String) : Prop where
  plain : Path.Plain name
  own : name ≠ metadataName
  down : name ≠ Path.parentName
  clean : '\x00' ∉ name.toList
  short : name.utf8ByteSize ≤ Disk.nameLimit

theorem Single.join (single : Single name) : directory.join name = ⟨directory.anchor, directory.parts ++ [name]⟩ := by
  unfold Path.join
  rw [Path.ofString_plain single.plain, append_relative rfl]

theorem Single.place (single : Single name) : (directory.join name).place = directory.place ++ [name] := by
  unfold Path.place
  rw [single.join, Path.endFrom_append]
  change Path.stepFrom _ name = _
  unfold Path.stepFrom
  rw [if_neg single.down]

theorem Single.free (single : Single name) : [name].head? ≠ some metadataName := by
  intro same
  exact single.own (Option.some.inj same)

theorem Single.direct (single : Single name) (direct : Direct directory.place directory) :
    Direct directory.place (directory.join name) := by
  intro q on below
  unfold Path.trail at on
  rw [single.join, Path.trailFrom_append] at on
  rcases List.mem_append.mp on with before | last
  · have leads := direct q before below
    exact absurd (leads.eq_of_length_le below.1.length_le) below.2
  · rw [List.mem_singleton.mp last] at below
    exact absurd below not_below_home

/-! ### What a run can start from -/

-- The directory can be made or is there, files of these names can be written into it, and none of them is above a file
-- that is tracked. What the program keeps is a repository, where anything is.
structure Sane (k : Keeping σ) (directory : Path) (names : List String) (w : World σ) : Prop where
  sound : w.disk.Sound
  apart : Apart directory.place w
  storable : Registry.Storable w
  located : w.disk.locate directory = .ok directory.place
  above : w.disk.item? directory.place.dropLast = some .directory
  noFile : ∀ content, w.disk.item? directory.place ≠ some (.file content)
  free : ∀ name ∈ names, w.disk.item? (directory.place ++ [name]) ≠ some .directory
  untracked : ∀ name ∈ names, ∀ more, more ≠ [] → ∀ v ∈ copies k directory.place w (name :: more), v = none
  whole : (w.disk.item? (metadataPlace directory.place)).isSome = true →
    (k.archive w.git w.disk directory.place).isSome = true

-- A repository that has a commit.
def Born (k : Keeping σ) (home : Place) (w : World σ) : Prop :=
  ∃ a, k.archive w.git w.disk home = some a ∧ a.commits ≠ []

-- Where there is no repository, and nothing of these names.
theorem sane_of_bare (restoring : Restoring runner k) (sound : w.disk.Sound) (apart : Apart directory.place w)
    (storable : Registry.Storable w) (located : w.disk.locate directory = .ok directory.place)
    (above : w.disk.item? directory.place.dropLast = some .directory)
    (noFile : ∀ content, w.disk.item? directory.place ≠ some (.file content))
    (bare : w.disk.item? (metadataPlace directory.place) = none)
    (lacks : ∀ name ∈ names, w.disk.item? (directory.place ++ [name]) = none) : Sane k directory names w := by
  refine ⟨sound, apart, storable, located, above, noFile, fun name listed stands => ?_,
    fun name listed more _ v member => ?_, fun kept => ?_⟩
  · rw [lacks name listed] at stands
    cases stands
  · have inside : w.disk.item? ((directory.place ++ [name]) ++ more) = none := absent_inside sound (lacks name listed)
    rw [List.append_assoc] at inside
    exact copies_bare restoring bare inside v member
  · rw [bare] at kept
    cases kept

namespace Sane

theorem beside (restoring : Restoring runner k) (sane : Sane k directory names w)
    (beside : Beside directory.place w w') : Sane k directory names w' := by
  have inside (way : Place) : w'.disk.item? (directory.place ++ way) = w.disk.item? (directory.place ++ way) :=
    beside.inside _ (List.prefix_append _ _)
  have itself := inside []
  rw [List.append_nil] at itself
  have archived : k.archive w'.git w'.disk directory.place = k.archive w.git w.disk directory.place := by
    rw [beside.git]
    exact restoring.same fun q own => beside.inside q (metadata_inside.trans own)
  refine ⟨beside.sound sane.sound, sane.apart.outlets beside.outlets, sane.storable.beside beside,
    Disk.locate_transfer beside.directories (fun _ _ => trivial) sane.located,
    (beside.directories _ trivial).mpr sane.above, ?_, fun name listed => ?_, fun name listed more deep v member => ?_, ?_⟩
  · rw [itself]
    exact sane.noFile
  · rw [inside]
    exact sane.free name listed
  · rw [copies_beside restoring beside] at member
    exact sane.untracked name listed more deep v member
  · rw [archived]
    unfold metadataPlace
    rw [inside]
    exact sane.whole

-- The only directory that can still be made is the one of the project.
theorem made (restoring : Restoring runner k) (sane : Sane k directory names w) {d : Disk}
    (grown : Grown (fun q => q = directory.place) w.disk d) : Sane k directory names { w with disk := d } := by
  have other {q : Place} (away : q ≠ directory.place) : d.item? q = w.disk.item? q := by
    rcases grown.entry q with same | ⟨_, _, here⟩
    · exact same
    · exact absurd here away
  have unkept : Grown (Unkept directory.place) w.disk d :=
    grown.mono fun q here => here ▸ unkept_of_aside not_below_home
  have stay : ∀ q, w.disk.item? q = some .directory → d.item? q = some .directory := fun _ => grown.directory
  have deeper {name : String} : directory.place ++ [name] ≠ directory.place := by simp
  refine ⟨grown.sound sane.sound, ⟨sane.apart.journal, sane.apart.store⟩, fun p path => ?_,
    Disk.locate_mono stay sane.located, stay _ sane.above, ?_, fun name listed => ?_,
    fun name listed more deep v member => ?_, ?_⟩
  · have writable := sane.storable p path
    refine ⟨Disk.locate_mono stay writable.located, ?_, stay _ writable.parent⟩
    rw [other fun here => (sane.apart.store p path).2 (here ▸ List.prefix_rfl)]
    exact writable.noDirectory
  · intro content
    change d.item? directory.place ≠ _
    rcases grown.entry directory.place with same | ⟨_, made, _⟩
    · rw [same]
      exact sane.noFile content
    · rw [made]
      nofun
  · change d.item? _ ≠ _
    rw [other deeper]
    exact sane.free name listed
  · rw [copies_grown restoring unkept] at member
    exact sane.untracked name listed more deep v member
  · have archived : k.archive w.git d directory.place = k.archive w.git w.disk directory.place := by
      refine restoring.same fun q own => other ?_
      rintro rfl
      exact unkept_of_aside not_below_home own
    change (d.item? (directory.place ++ [metadataName])).isSome = true → (k.archive w.git d directory.place).isSome = true
    rw [archived, other deeper]
    exact sane.whole

theorem written (restoring : Restoring runner k) (single : Single name) (sane : Sane k directory names w)
    {content : ByteArray} (writable : Writable w.disk (directory.join name) (directory.place ++ [name])) :
    Sane k directory names
      { w with disk := w.disk.put (directory.place ++ [name]) (.file content) } := by
  have deep : directory.place ++ [name] ≠ [] := writable_inside writable
  have free : [name].head? ≠ some metadataName := single.free
  have directories : Disk.SameDirectories (fun _ => True) w.disk
      (w.disk.put (directory.place ++ [name]) (.file content)) := Disk.sameDirectories_put writable.noDirectory
  have archived : k.archive w.git (w.disk.put (directory.place ++ [name]) (.file content)) directory.place
      = k.archive w.git w.disk directory.place := archive_put restoring deep free
  refine ⟨writable.put_sound sane.sound, ⟨sane.apart.journal, sane.apart.store⟩, fun p path => ?_,
    Disk.locate_put writable.noDirectory sane.located, (directories _ trivial).mpr sane.above, fun bytes => ?_,
    fun other listed => ?_, fun other listed more below v member => ?_, ?_⟩
  · exact (sane.storable p path).transfer directories ⟨fun _ _ => trivial, trivial, trivial⟩
  · change (w.disk.put _ _).item? _ ≠ _
    rw [Disk.item?_put _ _ _ _ deep, if_neg (by simp)]
    exact sane.noFile bytes
  · exact fun there => sane.free other listed ((directories _ trivial).mp there)
  · refine sane.untracked other listed more below v ?_
    unfold copies Keeping.copies Keeping.index Keeping.tree at member ⊢
    dsimp only at member
    rw [archived, workingTree_put deep free] at member
    have apart : other :: more ≠ [name] := fun same => below (List.cons.inj same).2
    unfold Tree.put at member
    rwa [if_neg apart] at member
  · change ((w.disk.put _ _).item? (directory.place ++ [metadataName])).isSome = true → _
    rw [Disk.item?_put _ _ _ _ deep, if_neg]
    · change _ → (k.archive w.git (w.disk.put _ _) directory.place).isSome = true
      rw [archived]
      exact sane.whole
    · intro same
      exact single.own (List.cons.inj (List.append_cancel_left same)).1.symm

-- A call that does what it should.
theorem called (restoring : Restoring runner k) (gentle : Gentle runner k) (flat : ∀ name ∈ names, Single name)
    (direct : Direct directory.place directory) (sane : Sane k directory names w) {c : Call}
    (here : c.directory = directory) : Sane k directory names (Leads.asked runner c w) := by
  subst here
  have outside {q : Place} (aside : ¬Below c.directory.place q) :
      (runner c w.git w.disk).2.2.item? q = w.disk.item? q := gentle.outside aside
  have around : Disk.SameDirectories (fun q => ¬Below c.directory.place q) w.disk (runner c w.git w.disk).2.2 := by
    intro q aside
    rw [outside aside]
  refine ⟨restoring.sound sane.sound, ⟨sane.apart.journal, sane.apart.store⟩,
    storable_of_around sane.apart sane.storable rfl around,
    Disk.locate_transfer around (direct.aside not_below_home) sane.located,
    (around _ (not_below_dropLast not_below_home)).mpr sane.above, fun content => ?_, fun name listed stands => ?_,
    fun name listed more deep v member => ?_, fun kept => ?_⟩
  · exact fun file => sane.noFile content ((outside not_below_home).symm.trans file)
  · rcases gentle.directories sane.sound (flat name listed).free stands with old | ⟨more, deep, tracked⟩
    · exact sane.free name listed old
    · have none := sane.untracked name listed more deep (k.tree w.git w.disk c.directory.place (name :: more))
        (List.mem_cons_of_mem _ (List.mem_cons_of_mem _ List.mem_cons_self))
      have tracked : (k.tree w.git w.disk c.directory.place (name :: more)).isSome = true := tracked
      rw [none] at tracked
      cases tracked
  · exact sane.untracked name listed more deep v (restoring.copies sane.sound _ v member)
  · rcases gentle.whole kept with old | new
    · obtain ⟨a, archived⟩ := Option.isSome_iff_exists.mp (sane.whole old)
      obtain ⟨b, archived', _⟩ := gentle.stays archived
      exact Option.isSome_iff_exists.mpr ⟨b, archived'⟩
    · exact new

-- What the program keeps for itself may be written down differently.
theorem congr (sane : Sane k directory names w) (disk : w'.disk = w.disk) (outlets : SameOutlets w w')
    (archived : k.archive w'.git w.disk directory.place = k.archive w.git w.disk directory.place) :
    Sane k directory names w' := by
  refine ⟨disk ▸ sane.sound, sane.apart.outlets outlets, fun p path => ?_, disk ▸ sane.located, disk ▸ sane.above,
    disk ▸ sane.noFile, disk ▸ sane.free, fun name listed more deep v member => ?_, ?_⟩
  · rw [disk]
    exact sane.storable p (outlets.path ▸ path)
  · refine sane.untracked name listed more deep v ?_
    unfold copies Keeping.copies Keeping.index Keeping.tree at member ⊢
    rwa [disk, archived] at member
  · rw [disk, archived]
    exact sane.whole

end Sane

/-! ### Steps -/

-- Whether a call was made for nothing or not.
theorem asked_sane (restoring : Restoring runner k) (gentle : Gentle runner k) (falters : Falters k runner other)
    (flat : ∀ name ∈ names, Single name) (direct : Direct directory.place directory)
    (sane : Sane k directory names w) {c : Call} (here : c.directory = directory) :
    Sane k directory names (Leads.asked other c w) ∧
      (Born k directory.place w → Born k directory.place (Leads.asked other c w)) := by
  rcases falters c w.git w.disk with ⟨disk, archived⟩ | ⟨disk, archived⟩
  · refine ⟨sane.congr disk ⟨rfl, rfl⟩ (archived directory.place), ?_⟩
    rintro ⟨a, before, born⟩
    refine ⟨a, ?_, born⟩
    change k.archive (other c w.git w.disk).2.1 (other c w.git w.disk).2.2 directory.place = _
    rw [disk, archived, before]
  · have done := sane.called restoring gentle flat direct here
    refine ⟨done.congr disk ⟨rfl, rfl⟩ (archived directory.place), ?_⟩
    rintro ⟨a, before, born⟩
    subst here
    obtain ⟨b, after, stays⟩ := gentle.stays before
    refine ⟨b, ?_, stays born⟩
    change k.archive (other c w.git w.disk).2.1 (other c w.git w.disk).2.2 c.directory.place = _
    rw [disk, archived, after]

-- Where a directory can be made that is not there: on the way to the file of the registry there is none missing, and on
-- the way to the project only the last one.
theorem Sane.grown {p : Path} {d : Disk} (sane : Sane k directory names w)
    (sought : p = directory ∨ ∃ store, w.registry.path = some store ∧ p = store.parent)
    (grown : Grown (DiskAction.OnWay p.parts) w.disk d) : Grown (fun q => q = directory.place) w.disk d := by
  refine ⟨fun q => ?_, grown.sound⟩
  rcases grown.entry q with same | ⟨absent, made, on⟩
  · exact .inl same
  · refine .inr ⟨absent, made, ?_⟩
    have missing {r : Place} (there : w.disk.item? r = some .directory) : q ≠ r := by
      rintro rfl
      rw [absent] at there
      cases there
    rcases sought with rfl | ⟨store, path, rfl⟩
    · rcases onWay_cases on with early | same
      · exact absurd rfl (missing ((Disk.locate_exact.mp sane.located).2.2.1 q early))
      · exact same
    · have writable := sane.storable store path
      have early := Registry.trail_of_onWay (Registry.parts_of_writable writable) on
      exact absurd rfl (missing ((Disk.locate_exact.mp writable.located).2.2.1 q early))

theorem Born.beside (restoring : Restoring runner k) (born : Born k directory.place w)
    (beside : Beside directory.place w w') : Born k directory.place w' := by
  obtain ⟨a, archived, some⟩ := born
  refine ⟨a, ?_, some⟩
  rw [beside.git, ← archived]
  exact restoring.same fun q own => beside.inside q (metadata_inside.trans own)

theorem step_sane (restoring : Restoring runner k) (gentle : Gentle runner k) (falters : Falters k runner other)
    (flat : ∀ name ∈ l.names, Single name) (direct : Direct l.directory.place l.directory)
    (sane : Sane k l.directory l.names w) (step : Step l other w w') :
    Sane k l.directory l.names w' ∧ (Born k l.directory.place w → Born k l.directory.place w') := by
  have aside (beside : Beside l.directory.place w w') :
      Sane k l.directory l.names w' ∧ (Born k l.directory.place w → Born k l.directory.place w') :=
    ⟨sane.beside restoring beside, fun born => born.beside restoring beside⟩
  cases step with
  | hear n => exact aside (hear_beside sane.apart)
  | grow sought grown =>
    have made := sane.grown sought grown
    refine ⟨sane.made restoring made, fun ⟨a, archived, born⟩ => ⟨a, ?_, born⟩⟩
    rw [← archived]
    refine restoring.same fun q own => ?_
    rcases made.entry q with same | ⟨_, _, here⟩
    · exact same
    · exact absurd own (here ▸ unkept_of_aside not_below_home)
  | @write name content listed writable =>
    have single := flat name listed
    rw [single.place] at writable ⊢
    refine ⟨sane.written restoring single writable, fun ⟨a, archived, born⟩ => ⟨a, ?_, born⟩⟩
    rw [← archived]
    exact archive_put restoring (writable_inside writable) single.free
  | take _ _ => exact asked_sane restoring gentle falters flat direct sane rfl
  | call here _ _ => exact asked_sane restoring gentle falters flat direct sane here
  | evict => exact aside ⟨rfl, ⟨rfl, Registry.remove_path⟩, fun _ _ => rfl, fun _ _ => .rfl, id⟩
  | enrol => exact aside ⟨rfl, ⟨rfl, rfl⟩, fun _ _ => rfl, fun _ _ => .rfl, id⟩
  | save path writable =>
    obtain ⟨_, outside⟩ := sane.apart.store _ path
    exact aside (beside_put outside writable.noDirectory (fun _ => writable.parent) rfl ⟨rfl, rfl⟩ rfl)

theorem steps_sane (restoring : Restoring runner k) (gentle : Gentle runner k) (falters : Falters k runner other)
    (flat : ∀ name ∈ l.names, Single name) (direct : Direct l.directory.place l.directory)
    (sane : Sane k l.directory l.names w) (steps : Steps l other w w') :
    Sane k l.directory l.names w' ∧ (Born k l.directory.place w → Born k l.directory.place w') := by
  have keeps {middle after : World σ}
      (held : Sane k l.directory l.names middle ∧ (Born k l.directory.place w → Born k l.directory.place middle))
      (step : Step l other middle after) :
      Sane k l.directory l.names after ∧ (Born k l.directory.place w → Born k l.directory.place after) := by
    obtain ⟨whole, born⟩ := step_sane restoring gentle falters flat direct held.1 step
    exact ⟨whole, fun start => born (held.2 start)⟩
  exact steps.keeps keeps ⟨sane, id⟩

/-! ### Runs -/

-- Runs on one source, one after another. In each of them the calls of the program may come to nothing at any point,
-- and in between things may change beside the directory of the project.
inductive Interrupted (k : Keeping σ) (runner : Runner σ) (e : Expansion) (parse : String → Source.Unit) (file : Path)
    (asked : Option Path) (home : Place) : World σ → World σ → Prop where
  | start {w : World σ} : Interrupted k runner e parse file asked home w w
  | run {other : Runner σ} {w middle w' : World σ} {result : Except Failure Outcome}
      (before : Interrupted k runner e parse file asked home w middle) (falters : Falters k runner other)
      (ran : (e.processFileBy parse file asked).run other middle = (result, w')) :
      Interrupted k runner e parse file asked home w w'
  | between {w middle w' : World σ} (before : Interrupted k runner e parse file asked home w middle)
      (beside : Beside home middle w') : Interrupted k runner e parse file asked home w w'

theorem interrupted_sane (restoring : Restoring runner k) (gentle : Gentle runner k)
    (source_is : source = file.resolve e.here) (directory_is : directory = (e.outputOf file asked).join source.stem)
    (flat : ∀ name ∈ e.possibleNames source, Single name) (direct : Direct directory.place directory)
    (sane : Sane k directory (e.possibleNames source) w)
    (runs : Interrupted k runner e parse file asked directory.place w w') :
    Sane k directory (e.possibleNames source) w' ∧ (Born k directory.place w → Born k directory.place w') := by
  induction runs with
  | start => exact ⟨sane, id⟩
  | between _ beside ih =>
    obtain ⟨before, born⟩ := ih sane
    exact ⟨before.beside restoring beside, fun start => (born start).beside restoring beside⟩
  | @run other _ middle ended result _ falters ran ih =>
    obtain ⟨before, born⟩ := ih sane
    have walks : Walks (e.leeway source directory (e.possibleNames source)) other middle (fun _ => True)
        (e.processFileBy parse file asked) :=
      processFileBy_walks source_is directory_is fun _ _ => lists_possible
    have steps : Steps (e.leeway source directory (e.possibleNames source)) other middle ended := by
      cases result with
      | ok o => exact (walks.well ran).1
      | error f => exact walks.failed ran
    obtain ⟨after, stays⟩ := steps_sane restoring gentle falters flat direct before steps
    exact ⟨after, fun start => stays (born start)⟩

end Expansion
end InlineProject

/-! ### The program in memory -/

namespace InlineProject.Git

variable {home way : Place} {d d' : Disk} {text : String}

-- A reset makes directories above tracked files only.
theorem Stock.reset_directory {s old : Stock} (deep : way ≠ [])
    (stands : (s.reset old home d).item? (home ++ way) = some .directory) :
    d.item? (home ++ way) = some .directory ∨ ∃ more, more ≠ [] ∧ (s.tree (way ++ more)).isSome = true := by
  have inside : home ++ way ≠ [] := fun root => deep (List.append_eq_nil_iff.mp root).2
  cases held : s.tree way with
  | some content =>
    rw [reset_file inside held] at stands
    cases stands
  | none =>
    unfold reset at stands
    rw [Disk.item?_remade, if_neg inside] at stands
    cases wrote : (s.written home).lookup (home ++ way) with
    | some item =>
      obtain ⟨f, member, p, _, ⟨more, leads⟩, same, _⟩ := written_cases wrote
      obtain rfl := List.append_cancel_left same
      refine .inr ⟨more, ?_, leads ▸ tree_isSome member⟩
      rintro rfl
      rw [List.append_nil] at leads
      have tracked := tree_isSome member
      rw [← leads, held] at tracked
      cases tracked
    | none =>
      rw [wrote, Option.none_or] at stands
      split at stands
      · exact .inl stands
      · cases stands

namespace Shelf

variable {s s' : Shelf} {o : Order}

theorem perform_directory (performed : s.perform home d o = some (text, s', d')) (free : way.head? ≠ some metadataName)
    (stands : d'.item? (home ++ way) = some .directory) :
    d.item? (home ++ way) = some .directory ∨ ∃ more, more ≠ [] ∧ (s.last.tree (way ++ more)).isSome = true := by
  by_cases deep : way = []
  · rw [perform_aside performed (.inl (by rw [deep, List.append_nil]; exact not_below_home))] at stands
    exact .inl stands
  · rcases perform_disk performed with rfl | ⟨_, rfl⟩ | ⟨_, rfl⟩
    · exact .inl stands
    · exact Stock.reset_directory deep stands
    · exact .inl (Stock.clean_inside free deep stands).1

-- No commit is lost.
theorem perform_entries (performed : s.perform home d o = some (text, s', d')) (born : s.entries ≠ []) :
    s'.entries ≠ [] := by
  cases performed_of_perform performed with
  | looked | reset | cleaned | added => exact born
  | committed => exact List.cons_ne_nil _ _

end Shelf

namespace Memory

variable {g : Memory} {c : Call}

theorem call_outside {q : Place} (aside : ¬Below c.directory.place q) : (runner c g d).2.2.item? q = d.item? q := by
  have turned : Turn c g d (runner c g d).1 (runner c g d).2.1 (runner c g d).2.2 := turn
  generalize (runner c g d).1 = reply, (runner c g d).2.1 = g', (runner c g d).2.2 = d' at turned ⊢
  cases turned with
  | refused => rfl
  | performed _ _ performed => exact Shelf.perform_aside performed (.inl aside)
  | begun _ _ _ =>
    rw [Disk.item?_put _ _ _ _ metadata_deep, if_neg]
    rintro rfl
    exact unkept_of_aside aside List.prefix_rfl

theorem call_directories (free : way.head? ≠ some metadataName)
    (stands : (runner c g d).2.2.item? (c.directory.place ++ way) = some .directory) :
    d.item? (c.directory.place ++ way) = some .directory ∨
      ∃ more, more ≠ [] ∧ (keeping.tree g d c.directory.place (way ++ more)).isSome = true := by
  have turned : Turn c g d (runner c g d).1 (runner c g d).2.1 (runner c g d).2.2 := turn
  generalize (runner c g d).1 = reply, (runner c g d).2.1 = g', (runner c g d).2.2 = d' at turned stands
  cases turned with
  | refused => exact .inl stands
  | performed _ found performed =>
    rw [(trees_of_shelf found).2]
    exact Shelf.perform_directory performed free stands
  | begun _ _ _ =>
    rw [Disk.item?_put _ _ _ _ metadata_deep, if_neg] at stands
    · exact .inl stands
    · intro same
      have own : metadataPlace c.directory.place <+: c.directory.place ++ way := by rw [same]
      exact unkept_append free own

theorem gentle : Gentle runner keeping where
  outside := call_outside
  directories _ := call_directories
  whole {c g d} kept := by
    have turned : Turn c g d (runner c g d).1 (runner c g d).2.1 (runner c g d).2.2 := turn
    generalize (runner c g d).1 = reply, (runner c g d).2.1 = g', (runner c g d).2.2 = d' at turned kept
    cases turned with
    | refused => exact .inl kept
    | performed _ found _ =>
      rw [shelf_kept found]
      exact .inl rfl
    | begun _ _ _ =>
      rw [archive_of_shelf shelf_begun]
      exact .inr rfl
  stays {c g d a} archived := by
    have turned : Turn c g d (runner c g d).1 (runner c g d).2.1 (runner c g d).2.2 := turn
    obtain ⟨s, found, same⟩ := Option.map_eq_some_iff.mp archived
    generalize (runner c g d).1 = reply, (runner c g d).2.1 = g', (runner c g d).2.2 = d' at turned
    cases turned with
    | refused => exact ⟨a, archived, id⟩
    | @performed s₁ s' _ _ _ _ found' performed =>
      obtain rfl := Option.some.inj (found.symm.trans found')
      refine ⟨s'.archive, archive_of_shelf (shelf_performed found performed), fun born => ?_⟩
      subst same
      have some : s.entries ≠ [] := fun none => born (by unfold Shelf.archive; rw [none]; rfl)
      exact fun none => Shelf.perform_entries performed some (List.map_eq_nil_iff.mp none)
    | begun _ _ fresh =>
      rw [shelf_none fresh] at found
      cases found

end Memory
end InlineProject.Git
