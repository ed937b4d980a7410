import InlineProject.Proofs.ActionEnds
import InlineProject.Proofs.MemoryProgram
import InlineProject.Proofs.PreparedDirectory
/-!
A program that answers the calls by which a repository comes to be. The calls of the laws are answered where there is a
commit; these are the ones by which there is a first one, and the one that is never answered without.
-/

namespace InlineProject.Git

open InlineProject.Action

variable {σ : Type} {runner : Runner σ} {k : Keeping σ} {accepted : String → Identity → Prop} {directory : Path}
  {home : Place} {w w' : World σ} {a : Archive} {c : Commit} {message : String} {identity : Identity}

-- A commit is made under a message and by a person that the program accepts, where there is something to commit or it
-- is said that there need not be.
structure Prompt (runner : Runner σ) (k : Keeping σ) (accepted : String → Identity → Prop) : Prop where
  init_answers {directory : Path} {home : Place} {g : σ} {d : Disk} (sound : d.Sound)
    (located : d.locate directory = .ok home) (there : d.item? home = some .directory)
    (fresh : d.item? (metadataPlace home) = none) : Answers runner (.init directory) g d
  commit_answers {directory : Path} {home : Place} {g : σ} {d : Disk} {a : Archive} {message : String}
    {identity : Identity} {allowEmpty : Bool} (stands : Stands k directory home g d a) (taken : accepted message identity)
    (some : allowEmpty = true ∨ a.tree ≠ a.index) : Answers runner (.commit directory message identity allowEmpty) g d
  -- Without a commit there is nothing to go back to.
  reset_refused {directory : Path} {home : Place} {g : σ} {d : Disk} {a : Archive}
    (stands : Stands k directory home g d a) (unborn : a.commits = []) :
    (∀ text, (runner (.reset directory) g d).1 ≠ .output text) ∧ (runner (.reset directory) g d).2.2 = d ∧
      k.archive (runner (.reset directory) g d).2.1 d home = some a

/-! ### Commits that are made -/

theorem commit_done (lawful : Lawful runner k) (prompt : Prompt runner k accepted)
    (holds : Holds k directory home w a) (taken : accepted message identity) (allowEmpty : Bool)
    (some : allowEmpty = true ∨ a.tree ≠ a.index) :
    ∃ c w', (Repository.commit ⟨directory⟩ message identity allowEmpty).run runner w = (.ok c, w') := by
  obtain ⟨text, middle, asked⟩ := answers_runs (prompt.commit_answers holds.stands taken some)
  obtain ⟨g', d', reply, called⟩ := callGit_parts asked
  obtain ⟨c, archived, quiet⟩ := lawful.commit holds.stands reply
  have sound := lawful.sound holds.stands.sound holds.stands.located reply
  obtain ⟨held, _⟩ := holds.quiet sound archived quiet rfl called
  obtain ⟨w', told⟩ := head_answers lawful held rfl
  refine ⟨c, w', ?_⟩
  unfold Repository.commit
  exact (bind_ok asked).trans told

-- Where nothing is taken in there has to be a commit already.
theorem commitStaged_done (lawful : Lawful runner k) (prompt : Prompt runner k accepted)
    (holds : Holds k directory home w a) (taken : accepted message identity)
    (born : k.Silent a.tree a.index → a.commits ≠ []) :
    ∃ c w', (Repository.commitStaged ⟨directory⟩ identity message).run runner w = (.ok c, w') := by
  by_cases silent : k.Silent a.tree a.index
  · obtain ⟨last, is⟩ : ∃ c, a.last = some c := by
      cases commits : a.commits with
      | nil => exact absurd commits (born silent)
      | cons entry _ => exact ⟨entry.1, by rw [Archive.last, commits]; rfl⟩
    obtain ⟨w', done, _⟩ : ∃ w', (Repository.commitStaged ⟨directory⟩ identity message).run runner w = (.ok last, w') ∧
        Holds k directory home w' a ∧ Still home w w' := commitStaged_answers lawful holds is silent
    exact ⟨last, w', done⟩
  · obtain ⟨text, asking, asked⟩ := answers_runs (lawful.diff_answers holds.stands)
    have listed : (Repository.staged ⟨directory⟩).run runner w = (.ok _, asking) := bind_ok asked
    obtain ⟨held, _, told⟩ := staged_holds lawful holds listed
    have apart : a.tree ≠ a.index := fun same => silent fun way differs => absurd (congrFun same way) differs
    obtain ⟨c, made, done⟩ := commit_done lawful prompt held taken false (.inr apart)
    have some := mt (fun none => told.mp (List.isEmpty_iff.mp none)) silent
    refine ⟨c, ?_, ?_⟩
    rotate_left
    unfold Repository.commitStaged
    rw [bind_ok listed, if_neg some, bind_ok done, bind_ok (run_note _ _ _)]
    rfl

theorem create_done (lawful : Lawful runner k) (prompt : Prompt runner k accepted) (direct : Direct home directory)
    (apart : Apart home w) (sound : w.disk.Sound) (located : w.disk.locate directory = .ok home)
    (there : w.disk.item? home = some .directory) (fresh : w.disk.item? (metadataPlace home) = none)
    (taken : accepted message identity) :
    ∃ w', (Repository.create directory identity message).run runner w = (.ok ⟨directory⟩, w') := by
  obtain ⟨middle, begun⟩ := command_answers (prompt.init_answers (g := w.git) sound located there fresh)
  have holds := init_holds lawful direct apart sound located fresh begun
  obtain ⟨c, w', done⟩ := commit_done lawful prompt holds taken true (.inl rfl)
  refine ⟨w', ?_⟩
  unfold Repository.create
  rw [bind_ok begun, bind_ok done]
  rfl

-- What is not committed cannot be discarded where there is no commit.
theorem restore_refused (prompt : Prompt runner k accepted) (stands : Stands k directory home w.git w.disk a)
    (unborn : a.commits = []) :
    Leads runner w (fun _ _ => False) (fun _ w' => w'.disk = w.disk ∧ k.archive w'.git w'.disk home = some a)
      (Repository.restore ⟨directory⟩) := by
  obtain ⟨silent, disk, archived⟩ := prompt.reset_refused stands unborn
  have refused : Leads runner w (fun _ _ => False)
      (fun _ w' => w'.disk = w.disk ∧ k.archive w'.git w'.disk home = some a) (callGit (.reset directory)) := by
    refine Leads.callGit (fun text told => silent text told) fun _ => ⟨disk, ?_⟩
    change k.archive _ (runner (.reset directory) w.git w.disk).2.2 home = _
    rw [disk]
    exact archived
  have command : Leads runner w (fun _ _ => False)
      (fun _ w' => w'.disk = w.disk ∧ k.archive w'.git w'.disk home = some a)
      (Repository.command ⟨directory⟩ ["reset", "--hard", "--quiet", "HEAD"]) := refused.cut
  unfold Repository.restore
  exact command.cut

end InlineProject.Git

/-! ### The program in memory -/

namespace InlineProject.Git.Memory

variable {g : Memory} {d : Disk} {directory : Path} {home : Place} {a : Archive}

theorem init_answered (located : d.locate directory = .ok home) (there : d.item? home = some .directory)
    (fresh : d.item? (metadataPlace home) = none) : Answers runner (.init directory) g d := by
  refine ⟨"", g.put home ⟨[], .empty⟩, d.put (metadataPlace home) .directory, ?_⟩
  have ordered : Order.ofArguments (Call.init directory).arguments = some .init := rfl
  have begun : g.answer home d .init
      = some ("", g.put home ⟨[], .empty⟩, d.put (metadataPlace home) .directory) := by
    unfold answer begin
    rw [shelf_none fresh]
    exact if_pos ⟨there, fresh⟩
  unfold runner
  rw [show (Call.init directory).directory = directory from rfl, located, ordered]
  dsimp only
  rw [begun]

theorem commit_answered {message : String} {identity : Identity} {allowEmpty : Bool}
    (stands : Stands keeping directory home g d a) (some : allowEmpty = true ∨ a.tree ≠ a.index) :
    Answers runner (.commit directory message identity allowEmpty) g d := by
  have ordered : Order.ofArguments (Call.commit directory message identity allowEmpty).arguments
      = .some (.commit message allowEmpty) := by
    cases allowEmpty <;> rfl
  refine answers_performed ordered stands fun s same => ?_
  have may : (allowEmpty || !s.differing.isEmpty) = true := by
    rw [Bool.or_eq_true]
    refine some.imp_right fun apart => ?_
    rw [← same, Shelf.archive_tree] at apart
    obtain ⟨way, differs⟩ := Function.ne_iff.mp apart
    have listed : way ∈ s.differing := Shelf.mem_differing.mpr differs
    cases names : s.differing with
    | nil =>
      rw [names] at listed
      cases listed
    | cons _ _ => rfl
  simp only [Shelf.perform]
  rw [if_pos may]
  rfl

theorem reset_refused (stands : Stands keeping directory home g d a) (unborn : a.commits = []) :
    runner (.reset directory) g d = (.failed (.code 128) none, g, d) := by
  have ordered : Order.ofArguments (Call.reset directory).arguments = some .reset := rfl
  obtain ⟨s, found, same⟩ := Option.map_eq_some_iff.mp stands.archived
  have none : s.entries = [] := by
    rw [← same] at unborn
    exact List.map_eq_nil_iff.mp unborn
  unfold runner answer
  rw [show (Call.reset directory).directory = directory from rfl, stands.located, ordered]
  dsimp only
  rw [found]
  dsimp only
  simp only [Shelf.perform]
  rw [none]
  rfl

-- It accepts every message and every person.
theorem prompt : Prompt runner keeping fun _ _ => True where
  init_answers _ := init_answered
  commit_answers stands _ some := commit_answered stands some
  reset_refused stands unborn := by
    rw [reset_refused stands unborn]
    exact ⟨nofun, rfl, stands.archived⟩

end InlineProject.Git.Memory
