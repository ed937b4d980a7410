import InlineProject.Proofs.Listings
import InlineProject.Proofs.WorldFrames
/-!
What calls of a lawful program make of a repository: for each action what it leaves behind where it ends
well, and where it ends well.
-/

namespace InlineProject.Git

open InlineProject.Action

variable {σ : Type} {runner : Runner σ} {k : Keeping σ} {directory : Path} {home : Place}
  {g g' : σ} {d d' : Disk} {w w' : World σ} {a a' : Archive} {c : Commit}

theorem Stands.place (stands : Stands k directory home g d a) : directory.place = home :=
  (Disk.locate_place stands.located).symm

theorem Stands.unkept (stands : Stands k directory home g d a) (direct : Direct home directory) :
    ∀ q ∈ directory.trail, Unkept home q := by
  intro q on
  refine unkept_of_aside (direct.aside ?_ q on)
  rw [stands.place]
  exact not_below_home

-- After a quiet call the directory is where it was.
theorem Stands.quiet (stands : Stands k directory home g d a) (direct : Direct home directory)
    (sound : d'.Sound) (archived : k.archive g' d' home = some a') (quiet : Quiet home d d') :
    Stands k directory home g' d' a' :=
  ⟨sound, Disk.locate_transfer quiet.directories (stands.unkept direct) stands.located, archived⟩

/-! ### Worlds -/

-- How the world stands in which a project is worked on: the files of the index are there as the index
-- has them.
structure Holds (k : Keeping σ) (directory : Path) (home : Place) (w : World σ) (a : Archive) :
    Prop where
  stands : Stands k directory home w.git w.disk a
  direct : Direct home directory
  apart : Apart home w
  matching : ∀ way content, a.index way = some content →
    workingTree w.disk home way = some content

-- What an action on a project leaves to the next one.
structure Still (home : Place) (w w' : World σ) : Prop where
  outlets : SameOutlets w w'
  directories : Disk.SameDirectories (Unkept home) w.disk w'.disk

theorem Still.refl : Still home w w := ⟨.refl, fun _ _ => .rfl⟩

theorem Still.trans {middle : World σ} (first : Still home w middle) (second : Still home middle w') :
    Still home w w' :=
  ⟨first.outlets.trans second.outlets, first.directories.trans second.directories⟩

theorem Still.symm (still : Still home w w') : Still home w' w :=
  ⟨⟨still.outlets.journal.symm, still.outlets.path.symm⟩,
    fun q unkept => (still.directories q unkept).symm⟩

theorem still_of_beside (beside : Beside home w w') : Still home w w' :=
  ⟨beside.outlets, beside.directories.mono fun _ _ => trivial⟩

theorem Stands.beside (lawful : Lawful runner k) (stands : Stands k directory home w.git w.disk a)
    (beside : Beside home w w') : Stands k directory home w'.git w'.disk a := by
  refine ⟨beside.sound stands.sound,
    Disk.locate_transfer beside.directories (fun _ _ => trivial) stands.located, ?_⟩
  rw [beside.git, lawful.same fun q kept => beside.inside q ((List.prefix_append _ _).trans kept)]
  exact stands.archived

theorem Holds.beside (lawful : Lawful runner k) (holds : Holds k directory home w a)
    (beside : Beside home w w') : Holds k directory home w' a := by
  refine ⟨holds.stands.beside lawful beside, holds.direct, holds.apart.outlets beside.outlets,
    fun way content indexed => ?_⟩
  rw [workingTree_congr fun way _ => beside.inside _ (List.prefix_append home way)]
  exact holds.matching way content indexed

theorem Holds.hear (lawful : Lawful runner k) (holds : Holds k directory home w a) {n : Note} :
    Holds k directory home (hear n w) a ∧ Still home w (hear n w) :=
  ⟨holds.beside lawful (hear_beside holds.apart), still_of_beside (hear_beside holds.apart)⟩

-- A quiet call that leaves the index alone.
theorem Holds.quiet {call : Call} (holds : Holds k directory home w a) (sound : d'.Sound)
    (archived : k.archive g' d' home = some a') (quiet : Quiet home w.disk d')
    (same : a'.index = a.index) (called : w' = { w with git := g', disk := d', calls := call :: w.calls }) :
    Holds k directory home w' a' ∧ Still home w w' := by
  subst called
  refine ⟨⟨holds.stands.quiet holds.direct sound archived quiet, holds.direct,
    ⟨holds.apart.journal, holds.apart.store⟩, fun way content indexed => ?_⟩,
    ⟨⟨rfl, rfl⟩, quiet.directories⟩⟩
  rw [quiet.workingTree]
  rw [same] at indexed
  exact holds.matching way content indexed

theorem answers_runs {call : Call} (answers : Answers runner call w.git w.disk) :
    ∃ text w', (callGit call).run runner w = (.ok text, w') := by
  obtain ⟨text, g', d', reply⟩ := answers
  rw [run_callGit, reply]
  exact ⟨text, _, rfl⟩

theorem command_parts {arguments : List String}
    (ran : (Repository.command ⟨directory⟩ arguments).run runner w = (.ok (), w')) :
    ∃ text g' d', runner ⟨program :: arguments, directory, none, false⟩ w.git w.disk
        = (.output text, g', d') ∧
      w' = { w with
        git := g'
        disk := d'
        calls := ⟨program :: arguments, directory, none, false⟩ :: w.calls } := by
  unfold Repository.command at ran
  obtain ⟨text, middle, asked, ended⟩ := bind_parts ran
  obtain ⟨g', d', reply, rfl⟩ := callGit_parts asked
  obtain ⟨_, rfl⟩ := pure_parts ended
  exact ⟨text, g', d', reply, rfl⟩

theorem command_answers {arguments : List String}
    (answers : Answers runner ⟨program :: arguments, directory, none, false⟩ w.git w.disk) :
    ∃ w', (Repository.command ⟨directory⟩ arguments).run runner w = (.ok (), w') := by
  obtain ⟨text, w', asked⟩ := answers_runs answers
  exact ⟨w', bind_ok asked⟩

/-! ### The last commit -/

theorem diff_holds (lawful : Lawful runner k) (holds : Holds k directory home w a) {text : String}
    (ran : (callGit (.diff directory)).run runner w = (.ok text, w')) :
    Holds k directory home w' a ∧ Still home w w' ∧ k.Lists a.tree a.index text := by
  obtain ⟨g', d', reply, called⟩ := callGit_parts ran
  obtain ⟨archived, quiet, told⟩ := lawful.diff holds.stands reply
  have sound := lawful.sound holds.stands.sound holds.stands.located reply
  obtain ⟨held, still⟩ := holds.quiet sound archived quiet rfl called
  exact ⟨held, still, told⟩

theorem head_holds (lawful : Lawful runner k) (holds : Holds k directory home w a)
    (ran : (Repository.head ⟨directory⟩).run runner w = (.ok c, w')) :
    Holds k directory home w' a ∧ Still home w w' ∧ a.last = some c := by
  unfold Repository.head at ran
  obtain ⟨text, middle, asked, ran⟩ := bind_parts ran
  obtain ⟨g₁, d₁, reply₁, called₁⟩ := callGit_parts asked
  obtain ⟨archived₁, quiet₁, last, is, sha⟩ := lawful.revParse holds.stands reply₁
  have sound₁ := lawful.sound holds.stands.sound holds.stands.located reply₁
  obtain ⟨held₁, still₁⟩ := holds.quiet sound₁ archived₁ quiet₁ rfl called₁
  rw [sha] at ran
  obtain ⟨message, _, told, ran⟩ := bind_parts ran
  obtain ⟨g₂, d₂, reply₂, called₂⟩ := callGit_parts told
  obtain ⟨archived₂, quiet₂, tells⟩ := lawful.log held₁.stands is reply₂
  have sound₂ := lawful.sound held₁.stands.sound held₁.stands.located reply₂
  obtain ⟨held₂, still₂⟩ := held₁.quiet sound₂ archived₂ quiet₂ rfl called₂
  obtain ⟨same, rfl⟩ := pure_parts ran
  rw [tells] at same
  subst same
  exact ⟨held₂, still₁.trans still₂, is⟩

theorem head_answers (lawful : Lawful runner k) (holds : Holds k directory home w a)
    (last : a.last = some c) : ∃ w', (Repository.head ⟨directory⟩).run runner w = (.ok c, w') := by
  have born : a.commits ≠ [] := by
    intro none
    rw [Archive.last, none] at last
    cases last
  obtain ⟨text, middle, asked⟩ := answers_runs (lawful.revParse_answers holds.stands born)
  obtain ⟨g₁, d₁, reply₁, called₁⟩ := callGit_parts asked
  obtain ⟨archived₁, quiet₁, other, is, sha⟩ := lawful.revParse holds.stands reply₁
  have sound₁ := lawful.sound holds.stands.sound holds.stands.located reply₁
  obtain ⟨held₁, _⟩ := holds.quiet sound₁ archived₁ quiet₁ rfl called₁
  obtain rfl := Option.some.inj (last.symm.trans is)
  obtain ⟨message, ended, told⟩ := answers_runs (lawful.log_answers held₁.stands last)
  obtain ⟨g₂, d₂, reply₂, _⟩ := callGit_parts told
  obtain ⟨_, _, tells⟩ := lawful.log held₁.stands last reply₂
  refine ⟨ended, ?_⟩
  unfold Repository.head
  refine (bind_ok asked).trans ?_
  rw [sha]
  refine (bind_ok told).trans ?_
  rw [tells]
  rfl

/-! ### Commits -/

theorem staged_holds (lawful : Lawful runner k) (holds : Holds k directory home w a)
    {names : List String}
    (ran : (Repository.staged ⟨directory⟩).run runner w = (.ok names, w')) :
    Holds k directory home w' a ∧ Still home w w' ∧ (names = [] ↔ k.Silent a.tree a.index) := by
  unfold Repository.staged at ran
  obtain ⟨text, middle, asked, ran⟩ := bind_parts ran
  obtain ⟨held, still, told⟩ := diff_holds lawful holds asked
  obtain ⟨rfl, rfl⟩ := pure_parts ran
  exact ⟨held, still, told.namesIn_nil⟩

theorem commit_holds (lawful : Lawful runner k) (holds : Holds k directory home w a)
    {message : String} {identity : Identity} {allowEmpty : Bool}
    (ran : (Repository.commit ⟨directory⟩ message identity allowEmpty).run runner w = (.ok c, w')) :
    ∃ a', Holds k directory home w' a' ∧ Still home w w' ∧ a'.last = some c ∧
      a'.index = a.index ∧ a'.tree = a.index := by
  unfold Repository.commit at ran
  obtain ⟨text, middle, asked, ran⟩ := bind_parts ran
  obtain ⟨g', d', reply, called⟩ := callGit_parts asked
  obtain ⟨made, archived, quiet⟩ := lawful.commit holds.stands reply
  have sound := lawful.sound holds.stands.sound holds.stands.located reply
  obtain ⟨held, still⟩ := holds.quiet sound archived quiet rfl called
  obtain ⟨held', still', last⟩ := head_holds lawful held ran
  exact ⟨_, held', still.trans still', last, rfl, rfl⟩

-- Afterwards there is nothing to commit: either there was nothing, or it was committed.
theorem commitStaged_holds (lawful : Lawful runner k) (holds : Holds k directory home w a)
    {message : String} {identity : Identity}
    (ran : (Repository.commitStaged ⟨directory⟩ identity message).run runner w = (.ok c, w')) :
    ∃ a', Holds k directory home w' a' ∧ Still home w w' ∧ a'.last = some c ∧ a'.index = a.index ∧
      k.Silent a'.tree a'.index ∧ (a'.tree = a.tree ∨ a'.tree = a.index) := by
  unfold Repository.commitStaged at ran
  obtain ⟨names, listedWorld, asked, ran⟩ := bind_parts ran
  obtain ⟨held, still, told⟩ := staged_holds lawful holds asked
  cases none : names.isEmpty with
  | true =>
    simp only [none, if_true] at ran
    obtain ⟨last, ended, looked, ran⟩ := bind_parts ran
    obtain ⟨held', still', is⟩ := head_holds lawful held looked
    obtain ⟨same, noted⟩ := note_pure_parts ran
    subst same noted
    obtain ⟨held'', still''⟩ := held'.hear lawful
    exact ⟨a, held'', (still.trans still').trans still'', is, rfl,
      told.mp (List.isEmpty_iff.mp none), .inl rfl⟩
  | false =>
    simp only [none, Bool.false_eq_true, if_false] at ran
    obtain ⟨made, ended, committed, ran⟩ := bind_parts ran
    obtain ⟨a', held', still', is, index, tree⟩ := commit_holds lawful held committed
    obtain ⟨same, noted⟩ := note_pure_parts ran
    subst same noted
    obtain ⟨held'', still''⟩ := held'.hear lawful
    refine ⟨a', held'', (still.trans still').trans still'', is, index, ?_, .inr tree⟩
    rw [tree, index]
    exact fun way apart => absurd rfl apart

theorem commitStaged_answers (lawful : Lawful runner k) (holds : Holds k directory home w a)
    {message : String} {identity : Identity} (last : a.last = some c)
    (silent : k.Silent a.tree a.index) :
    ∃ w', (Repository.commitStaged ⟨directory⟩ identity message).run runner w = (.ok c, w') ∧
      Holds k directory home w' a ∧ Still home w w' := by
  obtain ⟨text, asking, asked⟩ := answers_runs (lawful.diff_answers holds.stands)
  obtain ⟨_, _, told⟩ := diff_holds lawful holds asked
  have staged : (Repository.staged ⟨directory⟩).run runner w = (.ok [], asking) := by
    unfold Repository.staged
    refine (bind_ok asked).trans ?_
    rw [← told.namesIn_nil.mpr silent]
    rfl
  obtain ⟨held, still, _⟩ := staged_holds lawful holds staged
  obtain ⟨looking, looked⟩ := head_answers lawful held last
  obtain ⟨held', still', _⟩ := head_holds lawful held looked
  obtain ⟨held'', still''⟩ := held'.hear lawful
  refine ⟨_, ?_, held'', (still.trans still').trans still''⟩
  unfold Repository.commitStaged
  rw [bind_ok staged]
  simp only [List.isEmpty_nil, if_true]
  rw [bind_ok looked, bind_ok (run_note _ _ _)]
  rfl

end InlineProject.Git
