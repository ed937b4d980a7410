import InlineProject.Proofs.ExpansionRun
import InlineProject.Proofs.PreparedDirectory
/-!
Files of a project, written and taken into the index one after another, and the registration of the
project in between.
-/

namespace InlineProject.Git

open InlineProject.Action
open InlineProject.DiskAction (Writable writable_inside write_of_writable)

variable {σ : Type} {runner : Runner σ} {k : Keeping σ} {directory file : Path} {home way : Place}
  {w w' : World σ} {a : Archive} {name content : String}

/-! ### Ways to files -/

theorem append_absolute {p : Path} (absolute : p.isAbsolute = true) : directory ++ p = p := by
  change Path.append directory p = p
  unfold Path.append
  rw [if_pos absolute]

theorem append_relative {p : Path} (relative : p.isAbsolute = false) :
    directory ++ p = ⟨directory.anchor, directory.parts ++ p.parts⟩ := by
  change Path.append directory p = _
  unfold Path.append
  rw [relative, if_neg Bool.false_ne_true]

theorem join_absolute (absolute : directory.isAbsolute = true) :
    (directory.join name).isAbsolute = true := by
  unfold Path.join
  cases own : (Path.ofString name).isAbsolute with
  | true => rwa [append_absolute own]
  | false =>
    rw [append_relative own]
    exact absolute

-- What a path adds to the one of the directory was read from its text.
theorem plain_of_join (ends : (directory.join name).place = directory.place ++ way) :
    ∀ n ∈ way, Path.Plain n := by
  intro n member
  have beyond : n ∈ (directory.join name).place.drop directory.place.length := by
    rwa [ends, List.drop_left]
  unfold Path.join at beyond
  cases own : (Path.ofString name).isAbsolute with
  | true =>
    rw [append_absolute own] at beyond
    rcases Path.mem_drop_endFrom beyond with none | listed
    · rw [List.drop_nil] at none
      cases none
    · exact Path.plain_of_ofString listed
  | false =>
    rw [append_relative own] at beyond
    unfold Path.place at beyond
    rw [Path.endFrom_append] at beyond
    rcases Path.mem_drop_endFrom beyond with none | listed
    · rw [List.drop_length] at none
      cases none
    · exact Path.plain_of_ofString listed

theorem relative_exact (absolute : directory.isAbsolute = true) (own : file.isAbsolute = true)
    (clean : file.hasNull = false) :
    (Repository.mk directory).relative? file
      = if directory.place.isPrefixOf file.place
        then some ⟨.here, file.place.drop directory.place.length⟩ else none := by
  have settled (p : Path) (absolute : p.isAbsolute = true) :
      p.resolve Repository.root = ⟨.root, p.place⟩ := by
    have parts := Path.resolve_parts_eq p Repository.root
    rw [append_absolute absolute] at parts
    rw [← parts]
    rfl
  unfold Repository.relative?
  rw [clean, if_neg Bool.false_ne_true, append_absolute own, settled file own,
    settled directory absolute]
  unfold Path.relativeTo?
  simp only [decide_true, Bool.true_and]

theorem relative_parts (absolute : directory.isAbsolute = true) (own : file.isAbsolute = true)
    (clean : file.hasNull = false) {p : Path}
    (found : (Repository.mk directory).relative? file = some p) :
    ∃ way, p = ⟨.here, way⟩ ∧ file.place = directory.place ++ way := by
  rw [relative_exact absolute own clean] at found
  split at found
  · rename_i leads
    obtain ⟨way, ends⟩ := List.isPrefixOf_iff_prefix.mp leads
    refine ⟨way, ?_, ends.symm⟩
    rw [← Option.some.inj found, ← ends, List.drop_left]
  · cases found

theorem relative_of_below (absolute : directory.isAbsolute = true) (own : file.isAbsolute = true)
    (clean : file.hasNull = false) (ends : file.place = directory.place ++ way) :
    (Repository.mk directory).relative? file = some ⟨.here, way⟩ := by
  have leads : directory.place.isPrefixOf file.place = true :=
    List.isPrefixOf_iff_prefix.mpr ⟨way, ends.symm⟩
  rw [relative_exact absolute own clean, if_pos leads, ends, List.drop_left]

/-! ### Staging -/

theorem clean_of_located {d : Disk} {q : Place} (located : d.locate file = .ok q) :
    file.hasNull = false := (Disk.locate_exact.mp located).1

-- A file has been written and is not yet taken in.
theorem written_stands (lawful : Lawful runner k) (holds : Holds k directory home w a)
    (writable : Writable w.disk file (home ++ way)) (free : way.head? ≠ some metadataName)
    {bytes : ByteArray} :
    Stands k directory home w.git (w.disk.put (home ++ way) (.file bytes)) a ∧
      workingTree (w.disk.put (home ++ way) (.file bytes)) home
        = (workingTree w.disk home).put way bytes ∧
      ∀ other, (a.index other).isSome = true →
        (workingTree (w.disk.put (home ++ way) (.file bytes)) home other).isSome = true := by
  have inside := writable_inside writable
  have tree : workingTree (w.disk.put (home ++ way) (.file bytes)) home
      = (workingTree w.disk home).put way bytes := workingTree_put inside free
  refine ⟨⟨writable.put_sound holds.stands.sound,
    Disk.locate_put writable.noDirectory holds.stands.located, ?_⟩, tree, fun other indexed => ?_⟩
  · rw [lawful.same fun q kept => ?_]
    · exact holds.stands.archived
    · rw [Disk.item?_put _ _ _ _ inside, if_neg]
      rintro rfl
      exact unkept_append free kept
  · rw [tree]
    obtain ⟨old, indexed⟩ := Option.isSome_iff_exists.mp indexed
    unfold Tree.put
    split
    · rfl
    · rw [holds.matching other old indexed]
      rfl

theorem stage_added (lawful : Lawful runner k) (holds : Holds k directory home w a)
    (writable : Writable w.disk file (home ++ way)) (free : way.head? ≠ some metadataName)
    {bytes : ByteArray} {g' : σ} {d' : Disk} {text argument : String}
    (named : Path.ofString argument = ⟨.here, way⟩)
    (reply : runner (.add directory argument) w.git (w.disk.put (home ++ way) (.file bytes))
      = (.output text, g', d'))
    (called : w' = { w with
      git := g'
      disk := d'
      calls := Call.add directory argument :: w.calls }) :
    Holds k directory home w' (a.put way bytes) ∧ Still home w w' := by
  obtain ⟨stands, tree, all⟩ := written_stands lawful holds writable free
  have present : (w.disk.put (home ++ way) (.file bytes)).item? (home ++ way)
      = some (.file bytes) := by
    rw [Disk.item?_put _ _ _ _ (writable_inside writable), if_pos rfl]
  obtain ⟨archived, quiet⟩ := lawful.add stands named present all reply
  have sound := lawful.sound stands.sound stands.located reply
  subst called
  refine ⟨⟨stands.quiet holds.direct sound archived quiet, holds.direct,
    ⟨holds.apart.journal, holds.apart.store⟩, fun other content indexed => ?_⟩,
    ⟨⟨rfl, rfl⟩, (Disk.sameDirectories_put writable.noDirectory).trans quiet.directories⟩⟩
  rw [quiet.workingTree, tree]
  change a.index.put way bytes other = some content at indexed
  unfold Tree.put at indexed ⊢
  by_cases same : other = way
  · rw [if_pos same] at indexed ⊢
    exact indexed
  · rw [if_neg same] at indexed ⊢
    exact holds.matching other content indexed

-- The way to a file from the directory above it.
def wayTo (home : Place) (p : Path) : Place := p.place.drop home.length

-- The index with a file as it was written.
def Archive.stage (a : Archive) (home : Place) (file : Path) (content : String) : Archive :=
  a.put (wayTo home file) content.toUTF8

-- A file of a project can be written and taken in.
structure Placed (home : Place) (d : Disk) (file : Path) : Prop where
  ends : file.place = home ++ wayTo home file
  free : (wayTo home file).head? ≠ some metadataName
  writable : Writable d file (home ++ wayTo home file)

theorem wayTo_of_ends (ends : file.place = home ++ way) : wayTo home file = way := by
  rw [wayTo, ends, List.drop_left]

theorem Placed.still (placed : Placed home w.disk file) (direct : Direct home file)
    (still : Still home w w') : Placed home w'.disk file :=
  ⟨placed.ends, placed.free,
    placed.writable.transfer still.directories (guarded_below direct placed.ends placed.free)⟩

-- A file that was staged could be written, and the index has it as it was written.
theorem writeStaged_holds (lawful : Lawful runner k) (absolute : directory.isAbsolute = true)
    (holds : Holds k directory home w a)
    (ran : (Scaffold.writeStaged ⟨directory⟩ (directory.join name) content).run runner w
      = (.ok (), w')) :
    Placed home w.disk (directory.join name) ∧
      Holds k directory home w' (a.stage home (directory.join name) content) ∧ Still home w w' := by
  obtain ⟨q, writable, staged⟩ := Scaffold.writeStaged_parts ran
  obtain rfl := Disk.locate_place writable.located
  have clean := clean_of_located writable.located
  unfold Repository.stage at staged
  cases found : (Repository.mk directory).relative? (directory.join name) with
  | none =>
    rw [found] at staged
    cases staged
  | some p =>
    rw [found] at staged
    obtain ⟨way, rfl, ends⟩ := relative_parts absolute (join_absolute absolute) clean found
    have named := Path.ofString_toString (plain_of_join ends)
    rw [holds.stands.place] at ends
    rw [ends] at writable staged
    obtain ⟨text, g', d', reply, called⟩ := command_parts staged
    have located : (w.disk.put (home ++ way) (.file content.toUTF8)).locate directory = .ok home :=
      Disk.locate_put writable.noDirectory holds.stands.located
    have free : way.head? ≠ some metadataName := by
      intro own
      exact lawful.add_refused located named own ⟨text, g', d', reply⟩
    obtain ⟨held, still⟩ := stage_added lawful holds writable free named reply called
    have led := wayTo_of_ends ends
    refine ⟨⟨?_, ?_, ?_⟩, ?_, still⟩
    · rwa [led]
    · rwa [led]
    · rwa [led]
    · unfold Archive.stage
      rwa [led]

theorem writeStaged_answers (lawful : Lawful runner k) (absolute : directory.isAbsolute = true)
    (holds : Holds k directory home w a) (placed : Placed home w.disk (directory.join name)) :
    ∃ w', (Scaffold.writeStaged ⟨directory⟩ (directory.join name) content).run runner w
      = (.ok (), w') := by
  obtain ⟨ends, free, writable⟩ := placed
  rw [← holds.stands.place] at ends
  have found := relative_of_below absolute (join_absolute absolute)
    (clean_of_located writable.located) ends
  rw [holds.stands.place] at found
  have plain := plain_of_join ends
  rw [holds.stands.place] at plain
  have named := Path.ofString_toString plain
  have stands : Stands k directory home w.git
      (w.disk.put (home ++ wayTo home (directory.join name)) (.file content.toUTF8)) a :=
    (written_stands lawful holds writable free).1
  have present : (w.disk.put (home ++ wayTo home (directory.join name))
      (.file content.toUTF8)).item? (home ++ wayTo home (directory.join name))
      = some (.file content.toUTF8) := by
    rw [Disk.item?_put _ _ _ _ (writable_inside writable), if_pos rfl]
  have answers : Answers runner
      ⟨program :: ["add", "--", (⟨.here, wayTo home (directory.join name)⟩ : Path).toString],
        directory, none, false⟩ w.git
      (w.disk.put (home ++ wayTo home (directory.join name)) (.file content.toUTF8)) :=
    lawful.add_answers stands named free present
  have wrote : (onDisk (DiskAction.write (directory.join name) content.toUTF8)).run runner w
      = (.ok (), { w with
        disk := w.disk.put (home ++ wayTo home (directory.join name)) (.file content.toUTF8) }) := by
    rw [run_onDisk, write_of_writable writable]
  obtain ⟨w', added⟩ := command_answers (w := { w with
    disk := w.disk.put (home ++ wayTo home (directory.join name)) (.file content.toUTF8) }) answers
  refine ⟨w', ?_⟩
  unfold Scaffold.writeStaged
  rw [bind_ok wrote]
  unfold Repository.stage
  rw [found]
  exact added

/-! ### Several files -/

-- The index with files as they were written, by their names.
def Archive.stageAll (a : Archive) (home : Place) (directory : Path)
    (files : List (String × String)) : Archive :=
  files.foldl (fun a f => a.stage home (directory.join f.1) f.2) a

theorem stageAll_append {files more : List (String × String)} :
    a.stageAll home directory (files ++ more)
      = (a.stageAll home directory files).stageAll home directory more := List.foldl_append

theorem stageAll_commits {files : List (String × String)} :
    (a.stageAll home directory files).commits = a.commits := by
  induction files generalizing a with
  | nil => rfl
  | cons f rest ih => exact ih

-- What is staged, or was there before, is what two indexes have in common afterwards.
theorem stageAll_index {b : Archive} {files : List (String × String)}
    (common : a.index way = b.index way ∨ ∃ f ∈ files, way = wayTo home (directory.join f.1)) :
    (a.stageAll home directory files).index way = (b.stageAll home directory files).index way := by
  induction files generalizing a b with
  | nil =>
    rcases common with same | ⟨f, member, _⟩
    · exact same
    · cases member
  | cons f rest ih =>
    refine ih ?_
    change a.index.put _ _ way = b.index.put _ _ way ∨ _
    unfold Tree.put
    by_cases here : way = wayTo home (directory.join f.1)
    · rw [if_pos here, if_pos here]
      exact .inl rfl
    · rw [if_neg here, if_neg here]
      rcases common with same | ⟨g, member, leads⟩
      · exact .inl same
      · rcases List.mem_cons.mp member with rfl | later
        · exact absurd leads here
        · exact .inr ⟨g, later, leads⟩

theorem stageAll_other {files : List (String × String)}
    (other : ∀ f ∈ files, way ≠ wayTo home (directory.join f.1)) :
    (a.stageAll home directory files).index way = a.index way := by
  induction files generalizing a with
  | nil => rfl
  | cons f rest ih =>
    refine (ih fun g member => other g (List.mem_cons_of_mem _ member)).trans ?_
    exact if_neg (other f List.mem_cons_self)

theorem stageAll_isSome {files : List (String × String)}
    (indexed : (a.index way).isSome = true ∨ ∃ f ∈ files, way = wayTo home (directory.join f.1)) :
    ((a.stageAll home directory files).index way).isSome = true := by
  induction files generalizing a with
  | nil =>
    rcases indexed with there | ⟨f, member, _⟩
    · exact there
    · cases member
  | cons f rest ih =>
    refine ih ?_
    change (a.index.put _ _ way).isSome = true ∨ _
    unfold Tree.put
    by_cases here : way = wayTo home (directory.join f.1)
    · rw [if_pos here]
      exact .inl rfl
    · rw [if_neg here]
      rcases indexed with there | ⟨g, member, leads⟩
      · exact .inl there
      · rcases List.mem_cons.mp member with rfl | later
        · exact absurd leads here
        · exact .inr ⟨g, later, leads⟩

-- Staging the same files on what they made of an index changes nothing.
theorem stageAll_again {b : Archive} {files : List (String × String)}
    (made : b.index = (a.stageAll home directory files).index) :
    (b.stageAll home directory files).index = (a.stageAll home directory files).index := by
  funext way
  by_cases listed : ∃ f ∈ files, way = wayTo home (directory.join f.1)
  · exact stageAll_index (.inr listed)
  · rw [stageAll_other (a := b) fun f member leads => listed ⟨f, member, leads⟩, made]

end InlineProject.Git
