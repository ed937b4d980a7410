import InlineProject.Proofs.Conversation
import InlineProject.Proofs.RepeatedRun
/-!
The calls that the expansion of a comment makes, in order: the directory is prepared, the files are taken in, and
after the project has been registered it is committed.
-/

namespace InlineProject

open InlineProject.Action InlineProject.Git

variable {σ : Type} {runner : Runner σ} {w w' : World σ} {directory file : Path} {talk : List Exchange}

/-! ### The registry -/

namespace Registry

variable {r r' : Registry} {xml : String} {d d' : Disk}

-- The registry names the project of a file, as it was registered at this time.
def Records (file : Path) (w : World σ) : Prop :=
  w.registry.find? (Text.ofString file.stem)
    = some ⟨Text.ofString file.stem, Text.ofString file.toString, momentText w.now⟩

theorem Records.hear {n : Note} (records : Records file w) : Records file (Action.hear n w) := by
  unfold Records
  rwa [hear_registry, hear_now]

-- What is kept holds the same projects.
theorem keep_entries (ran : (keep r).run runner w = (.ok (), w')) :
    w'.registry.entries = r.entries ∧ w'.now = w.now := by
  obtain ⟨r', d', _, entries, _, rfl⟩ := keep_parts ran
  exact ⟨entries, rfl⟩

theorem keep_records (ran : (keep (registered w file)).run runner w = (.ok (), w')) :
    Records file w' := by
  obtain ⟨entries, now⟩ := keep_entries ran
  have put : (registered w file).find? (Text.ofString file.stem)
      = some ⟨Text.ofString file.stem, Text.ofString file.toString, momentText w.now⟩ := by
    unfold registered
    rw [find?_put, if_pos rfl]
    rfl
  unfold Records
  rw [now, ← put]
  unfold find?
  rw [entries]

theorem enroll_records (ran : (enroll file).run runner w = (.ok false, w')) : Records file w' := by
  unfold enroll at ran
  obtain ⟨opening, middle, _, ran⟩ := bind_parts ran
  cases opening with
  | unreadable reason => cases (note_pure_parts ran).1
  | otherMarkup => cases (note_pure_parts ran).1
  | project =>
    dsimp only at ran
    rw [bind_ok run_get] at ran
    obtain ⟨_, stored, kept, ran⟩ := bind_parts ran
    have ran := note_parts ran
    rw [← (note_pure_parts ran).2]
    exact (keep_records kept).hear.hear

-- A project that was not refused is recorded.
theorem register_records (ran : (register file xml).run runner w = (.ok false, w')) :
    Records file w' := by
  rw [register_eq] at ran
  obtain ⟨there, middle, _, ran⟩ := bind_parts ran
  cases there with
  | true => exact enroll_records ran
  | false =>
    obtain ⟨_, _, _, ran⟩ := bind_parts ran
    exact enroll_records ran

end Registry

/-! ### The repository -/

namespace Git

-- The name of the last commit, and what it says.
def Plan.head (directory : Path) : Plan Commit :=
  .ask (.revParse directory) fun sha =>
    .ask (.log directory (Blank.trimString sha)) fun message =>
      .done ⟨Blank.trimString sha, Blank.trimString message⟩

-- How a file is taken in, named by its way from the directory.
def Call.taking (directory file : Path) : Call :=
  .add directory (((Repository.mk directory).relative? file).getD file).toString

namespace Repository

variable {arguments : List String} {identity : Identity} {message : String}

-- A listing without a name in it is one of blank lines only.
def unlisted (listing : String) : Bool := (Lines.split listing.toList).all Blank.isBlankText

end Repository
end Git

/-! ### The directory -/

namespace Scaffold

variable {s : Scaffold}

-- Whether a directory is a repository already.
def found (d : Disk) (directory : Path) : Bool :=
  match d.look (directory.join metadataName) with
  | .ok item => item.isSome
  | .error _ => false

-- A directory that is no repository becomes one; of one that is, the changes are taken back.
def preparing (s : Scaffold) (directory : Path) (found : Bool) : Plan Unit :=
  if found then
    .ask (.status directory) fun listing =>
      if Blank.isBlankText listing.toList then .done ()
      else Plan.row [.reset directory, .clean directory]
  else
    .ask (.init directory) fun _ => .ask (.commit directory s.initialMessage s.identity true) fun _ =>
      (Plan.head directory).bind fun _ => .done ()

theorem distinctUsings_isEmpty {u : Source.Unit} : u.distinctUsings.isEmpty = u.usings.isEmpty := by
  unfold Source.Unit.distinctUsings
  cases u.usings with
  | nil => rfl
  | cons n rest => rfl

end Scaffold

/-! ### The expansion of a comment -/

namespace Expansion

variable {e : Expansion} {source output : Path} {u : Source.Unit} {d : Source.Node}

-- The files that are taken in before the project is registered.
def takings (e : Expansion) (source directory : Path) (u : Source.Unit) : List Call :=
  [.taking directory (directory.join (e.projectName source))]
    ++ (if u.usings.isEmpty then []
      else [.taking directory
        (directory.join (e.configuration.project.globalUsings ++ source.suffix))])
    ++ [.taking directory (directory.join source.name)]

-- What is called up to the registration.
def opening (e : Expansion) (source directory : Path) (u : Source.Unit) (found : Bool) : Plan Unit :=
  (e.scaffold.preparing directory found).bind fun _ => Plan.row (e.takings source directory u)

-- What is called after it.
def closing (e : Expansion) (directory : Path) : Plan Commit :=
  .ask (.taking directory (directory.join Scaffold.readmeName)) fun _ =>
    .ask (.diff directory) fun listing =>
      if Repository.unlisted listing then .head directory
      else
        .ask (.commit directory e.configuration.commits.message e.configuration.commits.identity false)
          fun _ => .head directory

theorem without_usings (apart : ∀ n ∈ u.usings, n.place ≠ d.place) : (u.without [d]).usings = u.usings := by
  unfold Source.Unit.usings Source.Unit.without
  rw [List.filter_filter, List.filter_congr]
  intro n member
  by_cases directive : n.kind = .using
  · have listed : n ∈ u.usings := List.mem_filter.mpr ⟨member, decide_eq_true directive⟩
    have other : d.place ≠ n.place := Ne.symm (apart n listed)
    simp [directive, other]
  · simp [directive]

/-! ### Commits -/

-- The last two answers name the commit.
def Names (directory : Path) (talk : List Exchange) (c : Commit) : Prop :=
  ∃ before sha message, talk = before ++ [⟨.revParse directory, .output sha⟩,
      ⟨.log directory (Blank.trimString sha), .output message⟩] ∧
    c = ⟨Blank.trimString sha, Blank.trimString message⟩

theorem Names.cons {x : Exchange} {c : Commit} (names : Names directory talk c) :
    Names directory (x :: talk) c := by
  obtain ⟨before, sha, message, rfl, rfl⟩ := names
  exact ⟨x :: before, sha, message, rfl, rfl⟩

end Expansion
end InlineProject
