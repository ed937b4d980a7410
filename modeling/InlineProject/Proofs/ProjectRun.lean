import InlineProject.Proofs.RegistryRun
/-!
The files of a project in the order in which they are written, whether a run is known to have ended well or is
to be shown to.
-/

namespace InlineProject.Scaffold

open InlineProject.Action InlineProject.Git

variable {σ : Type} {runner : Runner σ} {k : Keeping σ} {directory file : Path} {home : Place}
  {w middle w' : World σ} {a : Archive} {s : Scaffold} {name content : String}
  {files more : List (String × String)}

-- Files have been written and taken in.
structure Written (k : Keeping σ) (directory : Path) (home : Place) (files : List (String × String))
    (w w' : World σ) (a : Archive) : Prop where
  placed : ∀ f ∈ files, Placed home w.disk (directory.join f.1)
  holds : Holds k directory home w' (a.stageAll home directory files)
  still : Still home w w'

theorem Written.nil (holds : Holds k directory home w a) : Written k directory home [] w w a :=
  ⟨nofun, holds, .refl⟩

theorem Written.beside (lawful : Lawful runner k) (written : Written k directory home files w middle a)
    (beside : Beside home middle w') : Written k directory home files w w' a :=
  ⟨written.placed, written.holds.beside lawful beside,
    written.still.trans (still_of_beside beside)⟩

theorem Written.after (written : Written k directory home files middle w' a)
    (beside : Beside home w middle) : Written k directory home files w w' a := by
  refine ⟨fun f member => ?_, written.holds, (still_of_beside beside).trans written.still⟩
  obtain ⟨ends, free, writable⟩ := written.placed f member
  have back : Disk.SameDirectories (fun _ => True) middle.disk w.disk :=
    fun q all => (beside.directories q all).symm
  exact ⟨ends, free, writable.transfer back ⟨fun _ _ => trivial, trivial, trivial⟩⟩

theorem Written.append (first : Written k directory home files w middle a)
    (second : Written k directory home more middle w' (a.stageAll home directory files))
    (direct : ∀ f ∈ more, Direct home (directory.join f.1)) :
    Written k directory home (files ++ more) w w' a := by
  refine ⟨fun f member => ?_, ?_, first.still.trans second.still⟩
  · rcases List.mem_append.mp member with early | late
    · exact first.placed f early
    · exact (second.placed f late).still (direct f late) first.still.symm
  · rw [stageAll_append]
    exact second.holds

theorem writeStaged_written (lawful : Lawful runner k) (absolute : directory.isAbsolute = true)
    (holds : Holds k directory home w a)
    (ran : (writeStaged ⟨directory⟩ (directory.join name) content).run runner w = (.ok (), w')) :
    Written k directory home [(name, content)] w w' a := by
  obtain ⟨placed, held, still⟩ := writeStaged_holds lawful absolute holds ran
  refine ⟨fun f member => ?_, held, still⟩
  rw [List.mem_singleton.mp member]
  exact placed

/-! ### Runs that ended well -/

theorem writeProjectFile_written (lawful : Lawful runner k) (absolute : directory.isAbsolute = true)
    (holds : Holds k directory home w a)
    (ran : (s.writeProjectFile ⟨directory⟩ directory name content).run runner w = (.ok file, w')) :
    file = directory.join (name ++ s.extension) ∧
      Written k directory home [(name ++ s.extension, content)] w w' a := by
  unfold writeProjectFile at ran
  obtain ⟨_, middle, wrote, ran⟩ := bind_parts ran
  have written := writeStaged_written lawful absolute holds wrote
  obtain ⟨same, noted⟩ := note_pure_parts ran
  subst same noted
  exact ⟨rfl, written.beside lawful (hear_beside written.holds.apart)⟩

-- The file for the using directives, if there are any.
def usingFiles (name : String) (u : Source.Unit) : List (String × String) :=
  if u.distinctUsings.isEmpty then [] else [(name, usingsText u)]

theorem noteUsings_run (apart : Apart home w) {directives : List Source.Node} :
    ∃ w', (noteUsings directives).run runner w = (.ok (), w') ∧ Beside home w w' := by
  induction directives generalizing w with
  | nil => exact ⟨w, rfl, .refl⟩
  | cons n rest ih =>
    have beside := hear_beside (n := ⟨.debug, splitterPart, "Using directive: [" ++ n.code ++ "]"⟩) apart
    obtain ⟨w', noted, later⟩ := ih (apart.outlets beside.outlets)
    refine ⟨w', ?_, beside.trans later⟩
    unfold noteUsings
    rw [bind_ok (run_note _ _ _)]
    exact noted

theorem splitUsings_written (lawful : Lawful runner k) (absolute : directory.isAbsolute = true)
    (holds : Holds k directory home w a) {stem suffix : String} {u kept : Source.Unit}
    (ran : (splitUsings ⟨directory⟩ directory stem suffix u).run runner w = (.ok kept, w')) :
    Written k directory home (usingFiles (stem ++ suffix) u) w w' a := by
  unfold splitUsings at ran
  unfold usingFiles
  cases none : u.distinctUsings.isEmpty with
  | true =>
    simp only [none, if_true] at ran ⊢
    obtain ⟨_, rfl⟩ := pure_parts ran
    exact .nil holds
  | false =>
    simp only [none, Bool.false_eq_true, if_false] at ran ⊢
    obtain ⟨_, noted, notes, ran⟩ := bind_parts ran
    obtain ⟨_, same, beside⟩ : ∃ w', (noteUsings u.distinctUsings).run runner w = (.ok (), w') ∧
        Beside home w w' := noteUsings_run holds.apart
    rw [notes] at same
    obtain ⟨_, rfl⟩ := Prod.mk.inj same
    obtain ⟨_, middle, wrote, ran⟩ := bind_parts ran
    have written := writeStaged_written lawful absolute (holds.beside lawful beside) wrote
    obtain ⟨_, told⟩ := note_pure_parts ran
    subst told
    exact (written.beside lawful (hear_beside written.holds.apart)).after beside

theorem writeSource_written (lawful : Lawful runner k) (absolute : directory.isAbsolute = true)
    (holds : Holds k directory home w a) {u : Source.Unit}
    (ran : (writeSource ⟨directory⟩ directory name u).run runner w = (.ok file, w')) :
    Written k directory home [(name, u.fullText)] w w' a := by
  unfold writeSource at ran
  obtain ⟨_, middle, wrote, ran⟩ := bind_parts ran
  have written := writeStaged_written lawful absolute holds wrote
  obtain ⟨_, noted⟩ := note_pure_parts ran
  subst noted
  exact written.beside lawful (hear_beside written.holds.apart)

theorem writeReadme_written (lawful : Lawful runner k) (absolute : directory.isAbsolute = true)
    (holds : Holds k directory home w a)
    (ran : (writeReadme ⟨directory⟩ directory content).run runner w = (.ok file, w')) :
    Written k directory home [(readmeName, content)] w w' a := by
  unfold writeReadme at ran
  obtain ⟨_, middle, wrote, ran⟩ := bind_parts ran
  have written := writeStaged_written lawful absolute holds wrote
  obtain ⟨_, rfl⟩ := pure_parts ran
  exact written

/-! ### Runs that end well -/

theorem writeProjectFile_answers (lawful : Lawful runner k) (absolute : directory.isAbsolute = true)
    (holds : Holds k directory home w a) (content : String)
    (placed : Placed home w.disk (directory.join (name ++ s.extension))) :
    ∃ w', (s.writeProjectFile ⟨directory⟩ directory name content).run runner w
        = (.ok (directory.join (name ++ s.extension)), w') ∧
      Written k directory home [(name ++ s.extension, content)] w w' a := by
  obtain ⟨middle, wrote⟩ : ∃ w', (writeStaged ⟨directory⟩ (directory.join (name ++ s.extension))
      content).run runner w = (.ok (), w') := writeStaged_answers lawful absolute holds placed
  have ran : ∃ w', (s.writeProjectFile ⟨directory⟩ directory name content).run runner w
      = (.ok (directory.join (name ++ s.extension)), w') := by
    unfold writeProjectFile
    rw [bind_ok wrote, bind_ok (run_note _ _ _)]
    exact ⟨_, rfl⟩
  obtain ⟨w', ran⟩ := ran
  exact ⟨w', ran, (writeProjectFile_written lawful absolute holds ran).2⟩

theorem splitUsings_answers (lawful : Lawful runner k) (absolute : directory.isAbsolute = true)
    (holds : Holds k directory home w a) {stem suffix : String} {u : Source.Unit}
    (placed : ∀ f ∈ usingFiles (stem ++ suffix) u, Placed home w.disk (directory.join f.1)) :
    ∃ w', (splitUsings ⟨directory⟩ directory stem suffix u).run runner w
        = (.ok (u.without u.usings), w') ∧
      Written k directory home (usingFiles (stem ++ suffix) u) w w' a := by
  have ran : ∃ kept w', (splitUsings ⟨directory⟩ directory stem suffix u).run runner w
      = (.ok kept, w') := by
    unfold splitUsings
    unfold usingFiles at placed
    cases none : u.distinctUsings.isEmpty with
    | true =>
      simp only [none, if_true]
      exact ⟨_, _, rfl⟩
    | false =>
      simp only [none, Bool.false_eq_true, if_false] at placed ⊢
      obtain ⟨noted, notes, beside⟩ : ∃ w', (noteUsings u.distinctUsings).run runner w = (.ok (), w') ∧
          Beside home w w' := noteUsings_run holds.apart
      have placed := placed _ (List.mem_singleton.mpr rfl)
      have placed' : Placed home noted.disk (directory.join (stem ++ suffix)) :=
        ⟨placed.ends, placed.free, placed.writable.transfer beside.directories
          ⟨fun _ _ => trivial, trivial, trivial⟩⟩
      obtain ⟨middle, wrote⟩ : ∃ w', (writeStaged ⟨directory⟩ (directory.join (stem ++ suffix))
          (usingsText u)).run runner noted = (.ok (), w') :=
        writeStaged_answers lawful absolute (holds.beside lawful beside) placed'
      rw [bind_ok notes, bind_ok wrote, bind_ok (run_note _ _ _)]
      exact ⟨u.without u.usings, _, rfl⟩
  obtain ⟨kept, w', ran⟩ := ran
  obtain rfl := splitUsings_parts ran
  exact ⟨w', ran, splitUsings_written lawful absolute holds ran⟩

theorem writeSource_answers (lawful : Lawful runner k) (absolute : directory.isAbsolute = true)
    (holds : Holds k directory home w a) (u : Source.Unit)
    (placed : Placed home w.disk (directory.join name)) :
    ∃ w', (writeSource ⟨directory⟩ directory name u).run runner w
        = (.ok (directory.join name), w') ∧
      Written k directory home [(name, u.fullText)] w w' a := by
  obtain ⟨middle, wrote⟩ : ∃ w', (writeStaged ⟨directory⟩ (directory.join name) u.fullText).run
      runner w = (.ok (), w') := writeStaged_answers lawful absolute holds placed
  have ran : ∃ w', (writeSource ⟨directory⟩ directory name u).run runner w
      = (.ok (directory.join name), w') := by
    unfold writeSource
    rw [bind_ok wrote, bind_ok (run_note _ _ _)]
    exact ⟨_, rfl⟩
  obtain ⟨w', ran⟩ := ran
  exact ⟨w', ran, writeSource_written lawful absolute holds ran⟩

theorem writeReadme_answers (lawful : Lawful runner k) (absolute : directory.isAbsolute = true)
    (holds : Holds k directory home w a) (content : String)
    (placed : Placed home w.disk (directory.join readmeName)) :
    ∃ w', (writeReadme ⟨directory⟩ directory content).run runner w
        = (.ok (directory.join readmeName), w') ∧
      Written k directory home [(readmeName, content)] w w' a := by
  obtain ⟨middle, wrote⟩ : ∃ w', (writeStaged ⟨directory⟩ (directory.join readmeName) content).run
      runner w = (.ok (), w') := writeStaged_answers lawful absolute holds placed
  have ran : (writeReadme ⟨directory⟩ directory content).run runner w
      = (.ok (directory.join readmeName), middle) := bind_ok wrote
  exact ⟨middle, ran, writeReadme_written lawful absolute holds ran⟩

end InlineProject.Scaffold
