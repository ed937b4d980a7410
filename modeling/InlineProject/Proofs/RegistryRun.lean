import InlineProject.Proofs.StagedFiles
/-!
The registry of a run on the disk. Its file is written beside the directory of a project, and can be written
again where it was written once.
-/

namespace InlineProject.Registry

open InlineProject.Action InlineProject.Git
open InlineProject.DiskAction (Grown OnWay Writable makeDirectories_exists makeDirectories_grown onWay_end
  writable_inside write_cases write_of_writable)

variable {σ : Type} {runner : Runner σ} {k : Keeping σ} {directory file p : Path} {home q : Place}
  {d d' : Disk} {w w' : World σ} {a : Archive} {r r' : Registry} {content : ByteArray}

/-! ### The file -/

theorem parts_of_writable {place : Place} (writable : Writable d p place) : p.parts ≠ [] := by
  intro none
  refine writable_inside writable ?_
  rw [Disk.locate_place writable.located, Path.place, none]
  rfl

theorem parent_split (some : p.parts ≠ []) : ∃ last, p.parts = p.parent.parts ++ [last] :=
  ⟨p.parts.getLast some, (List.dropLast_concat_getLast some).symm⟩

-- The way to the directory of a file is the way to the file.
theorem trail_of_onWay (some : p.parts ≠ []) (on : OnWay p.parent.parts q) : q ∈ p.trail := by
  obtain ⟨last, split⟩ := parent_split some
  obtain ⟨front, ⟨rest, leads⟩, rfl⟩ := on
  rw [← leads, List.append_assoc] at split
  cases tail : rest ++ [last] with
  | nil => exact absurd tail (by simp)
  | cons name back =>
    rw [tail] at split
    exact Path.mem_trailFrom.mpr ⟨front, name, back, split, rfl⟩

theorem parent_there {place : Place} (writable : Writable d p place) :
    ∃ q, d.locate p.parent = .ok q ∧ d.item? q = some .directory := by
  obtain ⟨last, split⟩ := parent_split (parts_of_writable writable)
  have located : d.locate ⟨p.parent.anchor, p.parent.parts ++ [last]⟩ = .ok place := by
    rw [← split]
    exact writable.located
  exact ⟨_, Disk.locate_above located⟩

-- There is a file to be written, or there is not.
theorem idle_or_due (r : Registry) :
    (∀ p, r.path = some p → r.changed = false) ∨ ∃ p, r.path = some p ∧ r.changed = true := by
  cases path : r.path with
  | none => exact .inl nofun
  | some p =>
    cases changed : r.changed with
    | false => exact .inl fun _ _ => rfl
    | true => exact .inr ⟨p, rfl, rfl⟩

theorem persist_idle (idle : ∀ p, r.path = some p → r.changed = false) : r.persist.run.run d = (.ok r, d) := by
  unfold persist
  cases path : r.path with
  | none => rfl
  | some p =>
    dsimp only
    rw [idle p path]
    rfl

theorem persist_unstored (unstored : r.path = none) : r.persist.run.run d = (.ok r, d) :=
  persist_idle (by rw [unstored]; exact nofun)

theorem persist_run (path : r.path = some p) (changed : r.changed = true) :
    r.persist.run.run d = match (DiskAction.makeDirectories true p.parent).run.run d with
      | (.error e, above) => (.error e, above)
      | (.ok _, above) => match (DiskAction.write p (String.ofList r.layout).toUTF8).run.run above with
        | (.error e, d') => (.error e, d')
        | (.ok _, d') => (.ok { r with changed := false }, d') := by
  unfold persist
  rw [path]
  dsimp only
  rw [changed, if_pos rfl, DiskAction.run_bind]
  cases (DiskAction.makeDirectories true p.parent).run.run d with
  | mk result above =>
    cases result with
    | error e => rfl
    | ok _ =>
      dsimp only
      rw [DiskAction.run_bind]
      cases (DiskAction.write p (String.ofList r.layout).toUTF8).run.run above with
      | mk written d' => cases written <;> rfl

-- A registry that owes a write makes up for it unless the write fails; then no more than directories are made.
theorem persist_cases {result : Except FileError Registry} (path : r.path = some p)
    (changed : r.changed = true) (ran : r.persist.run.run d = (result, d')) :
    (∃ e, result = .error e ∧ Grown (OnWay p.parent.parts) d d') ∨
    (result = .ok { r with changed := false } ∧ ∃ above, Grown (OnWay p.parent.parts) d above ∧
      Writable above p p.place ∧ d' = above.put p.place (.file (String.ofList r.layout).toUTF8)) := by
  rw [persist_run path changed] at ran
  cases made : (DiskAction.makeDirectories true p.parent).run.run d with
  | mk first above =>
    have grown : Grown (OnWay p.parent.parts) d above := makeDirectories_grown made
    rw [made] at ran
    cases first with
    | error e =>
      cases ran
      exact .inl ⟨e, rfl, grown⟩
    | ok _ =>
      dsimp only at ran
      cases wrote : (DiskAction.write p (String.ofList r.layout).toUTF8).run.run above with
      | mk second below =>
        rw [wrote] at ran
        rcases write_cases wrote with ⟨failed, rfl⟩ | ⟨rfl, writable, rfl⟩
        · cases second with
          | ok _ => exact absurd rfl failed
          | error e =>
            cases ran
            exact .inl ⟨e, rfl, grown⟩
        · cases ran
          exact .inr ⟨rfl, above, grown, writable, rfl⟩

-- What keeping a registry does to the disk: the directories above its file are made, and it is written.
inductive Kept (r : Registry) (d d' : Disk) : Prop where
  | idle (unchanged : ∀ p, r.path = some p → r.changed = false) (same : d' = d)
  | written {p : Path} {middle : Disk} {content : ByteArray} (path : r.path = some p)
      (grown : Grown (fun q => q ∈ p.trail) d middle) (writable : Writable middle p p.place)
      (put : d' = middle.put p.place (.file content))

theorem persist_parts (ran : r.persist.run.run d = (.ok r', d')) :
    r'.path = r.path ∧ r'.entries = r.entries ∧ Kept r d d' := by
  rcases idle_or_due r with idle | ⟨p, path, changed⟩
  · rw [persist_idle idle] at ran
    cases ran
    exact ⟨rfl, rfl, .idle idle rfl⟩
  · rcases persist_cases path changed ran with ⟨e, refused, _⟩ | ⟨stored, above, grown, writable, put⟩
    · cases refused
    · cases stored
      refine ⟨rfl, rfl, .written path (grown.mono fun q on => ?_) writable put⟩
      exact trail_of_onWay (parts_of_writable writable) on

theorem persist_answers (writable : ∀ p, r.path = some p → Writable d p p.place) :
    ∃ r' d', r.persist.run.run d = (.ok r', d') ∧ r'.path = r.path ∧
      (d' = d ∨ ∃ p content, r.path = some p ∧ d' = d.put p.place (.file content)) := by
  rcases idle_or_due r with idle | ⟨p, path, changed⟩
  · exact ⟨r, d, persist_idle idle, rfl, .inl rfl⟩
  · obtain ⟨q, located, there⟩ := parent_there (writable p path)
    have stored : r.persist.run.run d = (.ok { r with changed := false },
        d.put p.place (.file (String.ofList r.layout).toUTF8)) := by
      rw [persist_run path changed, makeDirectories_exists located there]
      dsimp only
      rw [write_of_writable (writable p path)]
    exact ⟨_, _, stored, rfl, .inr ⟨p, _, path, rfl⟩⟩

theorem Kept.sound (kept : Kept r d d') (sound : d.Sound) : d'.Sound := by
  cases kept with
  | idle _ same => rwa [same]
  | written _ grown writable put =>
    rw [put]
    exact writable.put_sound (grown.sound sound)

theorem Kept.stays (kept : Kept r d d') (there : d.item? q = some .directory) :
    d'.item? q = some .directory := by
  cases kept with
  | idle _ same => rwa [same]
  | @written p middle content _ grown writable put =>
    rw [put]
    have same : Disk.SameDirectories (fun _ => True) middle (middle.put p.place (.file content)) :=
      Disk.sameDirectories_put writable.noDirectory
    exact (same q trivial).mpr (grown.directory there)

theorem Kept.inside (kept : Kept r d d') (there : d.item? home = some .directory)
    (store : ∀ p, r.path = some p → Direct home p ∧ ¬home <+: p.place) (below : home <+: q) :
    d'.item? q = d.item? q := by
  cases kept with
  | idle _ same => rw [same]
  | @written p middle content path grown writable put =>
    obtain ⟨direct, outside⟩ := store p path
    have other : q ≠ p.place := by
      rintro rfl
      exact outside below
    rw [put, Disk.item?_put _ _ _ _ (writable_inside writable), if_neg other]
    rcases grown.entry q with same | ⟨absent, _, on⟩
    · exact same
    · have apart : ¬Below home p.place := fun inside => outside inside.1
      refine absurd ⟨below, ?_⟩ (direct.aside apart q on)
      rintro rfl
      rw [there] at absent
      cases absent

-- The file of the registry can be written.
def Storable (w : World σ) : Prop := ∀ p, w.registry.path = some p → Writable w.disk p p.place

theorem Kept.writable (kept : Kept r d d') (changed : r.changed = true) :
    ∀ p, r.path = some p → Writable d' p p.place := by
  intro p path
  cases kept with
  | idle unchanged _ =>
    rw [unchanged p path] at changed
    cases changed
  | @written other middle content path' grown writable put =>
    obtain rfl : other = p := Option.some.inj (path'.symm.trans path)
    rw [put]
    have same : Disk.SameDirectories (fun _ => True) middle (middle.put other.place (.file content)) :=
      Disk.sameDirectories_put writable.noDirectory
    exact writable.transfer same ⟨fun _ _ => trivial, trivial, trivial⟩

/-! ### The registry of a run -/

theorem Storable.beside (storable : Storable w) (beside : Beside home w w') : Storable w' := by
  intro p path
  rw [beside.outlets.path] at path
  exact (storable p path).transfer beside.directories ⟨fun _ _ => trivial, trivial, trivial⟩

-- Keeping a registry is storing it in the world, as it was handed over or as it was written.
theorem keep_run : (keep r).run runner w = match r.persist.run.run w.disk with
    | (.ok kept, d') => (.ok (), { w with disk := d', registry := kept })
    | (.error e, d') => (.error (.file e), { w with disk := d', registry := r }) := by
  unfold keep
  rw [bind_ok (run_modify _), run_bind, run_onDisk]
  dsimp only
  cases r.persist.run.run w.disk with
  | mk result d' => cases result <;> rfl

theorem keep_parts (ran : (keep r).run runner w = (.ok (), w')) :
    ∃ r' d', r'.path = r.path ∧ r'.entries = r.entries ∧ Kept r w.disk d' ∧
      w' = { w with disk := d', registry := r' } := by
  rw [keep_run] at ran
  cases persisted : r.persist.run.run w.disk with
  | mk result d' =>
    rw [persisted] at ran
    cases result with
    | error e => cases ran
    | ok r' =>
      cases ran
      obtain ⟨path, entries, kept⟩ := persist_parts persisted
      exact ⟨r', d', path, entries, kept, rfl⟩

theorem keep_answers (apart : Apart home w) (storable : Storable w)
    (path : r.path = w.registry.path) :
    ∃ w', (keep r).run runner w = (.ok (), w') ∧ Beside home w w' := by
  have writable (p : Path) (on : r.path = some p) : Writable w.disk p p.place :=
    storable p (path ▸ on)
  obtain ⟨r', d', persisted, path', disk⟩ := persist_answers writable
  refine ⟨{ w with disk := d', registry := r' }, ?_, ?_⟩
  · rw [keep_run, persisted]
  · rcases disk with rfl | ⟨p, content, on, rfl⟩
    · exact ⟨rfl, ⟨rfl, path'.trans path⟩, fun _ _ => rfl, fun _ _ => .rfl, id⟩
    · obtain ⟨_, outside⟩ := apart.store p (path ▸ on)
      exact beside_put outside (writable p on).noDirectory (fun _ => (writable p on).parent) rfl
        ⟨rfl, path'.trans path⟩ rfl

theorem remove_path {name : Text} : (r.remove name).2.path = r.path := by
  unfold remove
  split <;> rfl

theorem release_parts (apart : Apart home w) {name : String} {removed : Bool}
    (ran : (release name).run runner w = (.ok removed, w')) :
    SameOutlets w w' ∧ (w.disk.Sound → w'.disk.Sound) := by
  unfold release at ran
  rw [bind_ok run_get] at ran
  dsimp only at ran
  split at ran
  · have ran := note_parts ran
    obtain ⟨_, _, stored, ended⟩ := bind_parts ran
    obtain ⟨_, rfl⟩ := pure_parts ended
    have beside := hear_beside (n := ⟨.info, part, "Removing " ++ name ++ " from workspace"⟩) apart
    obtain ⟨r', d', path, _, kept, rfl⟩ := keep_parts stored
    refine ⟨beside.outlets.trans ⟨rfl, ?_⟩, fun sound => kept.sound (beside.sound sound)⟩
    rw [path, remove_path]
    exact beside.outlets.path.symm
  · obtain ⟨_, rfl⟩ := pure_parts ran
    exact ⟨.refl, id⟩

theorem release_answers (apart : Apart home w) (storable : Storable w) {name : String} :
    ∃ removed w', (release name).run runner w = (.ok removed, w') ∧ Beside home w w' := by
  unfold release
  rw [bind_ok run_get]
  dsimp only
  split
  · have beside := hear_beside (n := ⟨.info, part, "Removing " ++ name ++ " from workspace"⟩) apart
    have path : (w.registry.remove (Text.ofString name)).2.path
        = (hear ⟨.info, part, "Removing " ++ name ++ " from workspace"⟩ w).registry.path := by
      rw [remove_path, beside.outlets.path]
    obtain ⟨w', kept, beside'⟩ : ∃ w', (keep (w.registry.remove (Text.ofString name)).2).run runner
        (hear ⟨.info, part, "Removing " ++ name ++ " from workspace"⟩ w) = (.ok (), w') ∧
          Beside home (hear ⟨.info, part, "Removing " ++ name ++ " from workspace"⟩ w) w' :=
      keep_answers (apart.outlets beside.outlets) (storable.beside beside) path
    refine ⟨(w.registry.remove (Text.ofString name)).1, w', ?_, beside.trans beside'⟩
    rw [bind_ok (run_note _ _ _), bind_ok kept]
    rfl
  · exact ⟨(w.registry.remove (Text.ofString name)).1, w, rfl, .refl⟩

/-! ### Registration -/

theorem openProject_run (located : w.disk.locate file = .ok q)
    (present : w.disk.item? q = some (.file content)) :
    (openProject file).run runner w = (openingOf content, w) := by
  have read : (DiskAction.read file).run.run w.disk = (.ok content, w.disk) := by
    rw [DiskAction.run_read, located]
    dsimp only
    rw [present]
  unfold openProject
  rw [bind_ok run_get, read]
  dsimp only
  cases openingOf content <;> rfl

theorem register_there (located : w.disk.locate file = .ok q)
    (present : w.disk.item? q = some (.file content)) :
    (onDisk (DiskAction.pathExists file)).run runner w = (.ok true, w) := by
  rw [Scaffold.pathExists_run, Disk.look_located located, present]
  rfl

-- What registration makes of a file that is there.
def enroll (file : Path) : Action σ Bool := do
  match ← openProject file with
  | .unreadable reason => do
      Action.note .warning part ("Could not open project " ++ file.toString ++ ": " ++ reason)
      return true
  | .otherMarkup => do
      Action.note .warning part (file.toString ++ " is not a project file")
      return true
  | .project => do
      let w ← get
      let (_, r) := w.registry.put (Text.ofString file.stem) file.toString w.now
      keep r
      Action.note .info part ("Added project to workspace: " ++ file.toString)
      Action.note .debug part
        ("Workspace now holds " ++ toString r.entries.length ++ " project(s)")
      return false

theorem register_eq (file : Path) (xml : String) : (register file xml : Action σ Bool) = (do
    let there ← Action.onDisk (DiskAction.pathExists file)
    if there then enroll file
    else
      Action.onDisk (DiskAction.write file (xml ++ "\n").toUTF8)
      enroll file) := by
  unfold register
  refine bind_congr fun there => ?_
  cases there <;> rfl

-- The registry with the project of a file in it.
def registered (w : World σ) (file : Path) : Registry :=
  (w.registry.put (Text.ofString file.stem) file.toString w.now).2

theorem register_parts (located : w.disk.locate file = .ok q)
    (present : w.disk.item? q = some (.file content)) {xml : String}
    (ran : (register file xml).run runner w = (.ok false, w')) :
    openingOf content = .ok .project ∧
      ∃ stored n m, (keep (registered w file)).run runner w = (.ok (), stored) ∧
        w' = hear m (hear n stored) := by
  unfold register at ran
  rw [bind_ok (register_there located present)] at ran
  simp only [Bool.not_true, Bool.false_eq_true, if_false] at ran
  obtain ⟨opening, middle, opened, ran⟩ := bind_parts ran
  rw [openProject_run located present] at opened
  obtain ⟨opens, rfl⟩ := Prod.mk.inj opened
  refine ⟨?_, ?_⟩
  · cases opening with
    | project => exact opens
    | otherMarkup => cases (note_pure_parts ran).1
    | unreadable reason => cases (note_pure_parts ran).1
  · cases opening with
    | project =>
      dsimp only at ran
      rw [bind_ok run_get] at ran
      obtain ⟨_, stored, kept, ran⟩ := bind_parts ran
      have ran := note_parts ran
      exact ⟨stored, _, _, kept, (note_pure_parts ran).2.symm⟩
    | otherMarkup => cases (note_pure_parts ran).1
    | unreadable reason => cases (note_pure_parts ran).1

theorem register_project (located : w.disk.locate file = .ok q)
    (present : w.disk.item? q = some (.file content)) (opens : openingOf content = .ok .project)
    {xml : String} {stored : World σ}
    (kept : (keep (registered w file)).run runner w = (.ok (), stored)) :
    ∃ n m, (register file xml).run runner w = (.ok false, hear m (hear n stored)) := by
  have opened : (openProject file).run runner w = (.ok .project, w) := by
    rw [openProject_run located present, opens]
  refine ⟨?_, ?_, ?_⟩
  rotate_left 2
  · unfold register
    rw [bind_ok (register_there located present)]
    simp only [Bool.not_true, Bool.false_eq_true, if_false]
    rw [bind_ok opened]
    dsimp only
    rw [bind_ok run_get]
    refine (bind_ok kept).trans ?_
    rw [bind_ok (run_note _ _ _), bind_ok (run_note _ _ _)]
    rfl

-- A project that was registered: its file is one of a project, and the registry can be written again.
theorem register_holds (lawful : Lawful runner k) (holds : Holds k directory home w a)
    (located : w.disk.locate file = .ok q) (present : w.disk.item? q = some (.file content))
    {xml : String} (ran : (register file xml).run runner w = (.ok false, w')) :
    openingOf content = .ok .project ∧ Holds k directory home w' a ∧ Storable w' ∧
      ∀ q, w.disk.item? q = some .directory → w'.disk.item? q = some .directory := by
  obtain ⟨opens, stored, n, m, kept, rfl⟩ := register_parts located present ran
  obtain ⟨r', d', path, _, keeps, rfl⟩ := keep_parts kept
  have there : w.disk.item? home = some .directory :=
    Disk.directory_above holds.stands.sound (lawful.kept holds.stands.archived)
      (List.cons_ne_nil metadataName [])
  have inside {q : Place} (below : home <+: q) : d'.item? q = w.disk.item? q :=
    keeps.inside there holds.apart.store below
  have apart : Apart home { w with disk := d', registry := r' } :=
    holds.apart.outlets ⟨rfl, path⟩
  have held : Holds k directory home { w with disk := d', registry := r' } a := by
    refine ⟨⟨keeps.sound holds.stands.sound,
      Disk.locate_mono (fun _ there => keeps.stays there) holds.stands.located, ?_⟩, holds.direct,
      apart, fun way content indexed => ?_⟩
    · rw [lawful.same fun q kept => inside (metadata_inside.trans kept)]
      exact holds.stands.archived
    · rw [workingTree_congr fun way _ => inside (List.prefix_append home way)]
      exact holds.matching way content indexed
  have storable : Storable { w with disk := d', registry := r' } := by
    intro p on
    exact keeps.writable rfl p (path ▸ on)
  have beside₁ := hear_beside (n := n) apart
  have beside₂ := hear_beside (n := m) (apart.outlets beside₁.outlets)
  refine ⟨opens, (held.beside lawful beside₁).beside lawful beside₂,
    (storable.beside beside₁).beside beside₂, fun q there => ?_⟩
  exact ((beside₁.directories.trans beside₂.directories) q trivial).mpr (keeps.stays there)

theorem register_answers (holds : Holds k directory home w a) (located : w.disk.locate file = .ok q)
    (present : w.disk.item? q = some (.file content)) (opens : openingOf content = .ok .project)
    (storable : Storable w) {xml : String} :
    ∃ w', (register file xml).run runner w = (.ok false, w') ∧ Beside home w w' := by
  obtain ⟨stored, kept, beside⟩ : ∃ stored,
      (keep (registered w file)).run runner w = (.ok (), stored) ∧ Beside home w stored :=
    keep_answers holds.apart storable rfl
  obtain ⟨n, m, ran⟩ : ∃ n m,
      (register file xml).run runner w = (.ok false, hear m (hear n stored)) :=
    register_project located present opens kept
  have apart := holds.apart.outlets beside.outlets
  have beside₁ := hear_beside (n := n) apart
  exact ⟨_, ran, (beside.trans beside₁).trans (hear_beside (apart.outlets beside₁.outlets))⟩

end InlineProject.Registry
