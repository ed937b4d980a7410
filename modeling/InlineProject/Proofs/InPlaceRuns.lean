import InlineProject.Proofs.RunAttempts
import InlineProject.Proofs.ScannedFiles
/-!
Runs that make repositories of directories. Files come only in a directory that has become a repository, where the
registry is kept, and where a name leads out of the directory; all else that comes are directories on the way.
-/

namespace InlineProject

open InlineProject.Action InlineProject.Git
open InlineProject.DiskAction (Grown OnWay Made Writable makeDirectories_grown makeOne_cases write_cases run_pathExists)

/-! ### Trees -/

namespace Disk

variable {d d' : Disk} {place : Place} {item : Item}

-- Every entry stands in a directory, and no place is listed twice.
structure Tree (d : Disk) : Prop where
  sound : d.Sound
  distinct : d.Distinct

theorem putIn_places {items : List (Place × Item)} : (putIn place item items).map Prod.fst
    = if place ∈ items.map Prod.fst then items.map Prod.fst else items.map Prod.fst ++ [place] := by
  induction items with
  | nil => rfl
  | cons entry rest ih =>
    obtain ⟨other, old⟩ := entry
    by_cases same : other = place
    · subst same
      simp [putIn]
    · have apart : place ≠ other := Ne.symm same
      unfold putIn
      rw [if_neg same, List.map_cons, ih]
      by_cases later : place ∈ rest.map Prod.fst <;> simp [later, apart]

theorem put_distinct (distinct : d.Distinct) : (d.put place item).Distinct := by
  unfold Distinct put at *
  rw [putIn_places]
  split
  · exact distinct
  · rename_i new
    exact List.nodup_append.mpr ⟨distinct, List.nodup_singleton _, fun a listed b there same => by
      rw [List.mem_singleton.mp there] at same
      exact new (same ▸ listed)⟩

theorem Tree.file (tree : d.Tree) {content : ByteArray} (inside : place ≠ []) (free : d.item? place ≠ some .directory)
    (parent : d.item? place.dropLast = some .directory) : (d.put place (.file content)).Tree :=
  ⟨put_sound tree.sound inside parent (.inl free), put_distinct tree.distinct⟩

end Disk

namespace DiskAction

open Disk

variable {d d' : Disk} {p : Path}

theorem makeOne_distinct {mayExist : Bool} {r : Except FileError Unit} (distinct : d.Distinct)
    (ran : (makeOne mayExist p).run.run d = (r, d')) : d'.Distinct := by
  rcases makeOne_cases ran with ⟨_, rfl⟩ | ⟨_, _, _, _, rfl⟩
  · exact distinct
  · exact put_distinct distinct

-- The induction is on the names, as the directories above are made before.
theorem makeFrom_distinct {anchor : Anchor} {mayExist : Bool} {names : List String} {r : Except FileError Unit}
    (distinct : d.Distinct) (ran : (makeFrom anchor mayExist names).run.run d = (r, d')) : d'.Distinct := by
  induction names generalizing mayExist d r d' with
  | nil => exact makeOne_distinct distinct ran
  | cons name above ih =>
    rcases makeFrom_cases ran with tried | ⟨_, _, _, _, higher, upward, ended⟩
    · exact makeOne_distinct distinct tried
    · have raised : higher.Distinct := ih distinct upward
      rcases ended with ⟨_, rfl, _⟩ | last
      · exact raised
      · exact makeOne_distinct raised last

theorem makeDirectories_tree {mayExist : Bool} {r : Except FileError Unit} (tree : d.Tree)
    (ran : (makeDirectories mayExist p).run.run d = (r, d')) : d'.Tree :=
  ⟨(makeDirectories_grown ran).sound tree.sound, makeFrom_distinct tree.distinct ran⟩

end DiskAction

/-! ### Directories that become repositories -/

-- A program that makes a directory a repository by something of its own in it, and changes nothing elsewhere. Where
-- there is no repository afterwards it has changed nothing at all.
structure Git.Planting {σ : Type} (runner : Runner σ) : Prop where
  aside : ∀ c g d q, ¬metadataPlace c.directory.place <+: q → (runner c g d).2.2.item? q = d.item? q
  begins : ∀ directory g d text, (runner (.init directory) g d).1 = .output text →
    (runner (.init directory) g d).2.2.Marked directory.place
  keeps : ∀ c g d, d.Marked c.directory.place → (runner c g d).2.2.Marked c.directory.place
  idle : ∀ c g d, ¬(runner c g d).2.2.Marked c.directory.place → (runner c g d).2.2 = d
  tree : ∀ c g d, d.Tree → (runner c g d).2.2.Tree

-- In one of some directories that has become a repository.
def Disk.Claims (d : Disk) (homes : Place → Prop) (q : Place) : Prop :=
  ∃ home, homes home ∧ d.Marked home ∧ home <+: q

variable {σ α : Type} {w middle w' : World σ} {homes loose : Place → Prop} {q : Place}

-- Where directories come on the way to the projects and to the registry.
def World.Ahead (w : World σ) (homes : Place → Prop) (q : Place) : Prop :=
  (∃ home, homes home ∧ q <+: home) ∨ ∃ p, w.registry.path = some p ∧ OnWay p.parts q

-- What has become of a place that lies in no repository.
inductive World.Turned (w w' : World σ) (homes loose : Place → Prop) (q : Place) : Prop where
  | same (same : w'.disk.item? q = w.disk.item? q)
  | made (absent : w.disk.item? q = none) (made : w'.disk.item? q = some .directory) (ahead : w.Ahead homes q)
  | wrote {content : ByteArray} (may : w.Outlet q ∨ loose q) (free : w.disk.item? q ≠ some .directory)
      (wrote : w'.disk.item? q = some (.file content))

-- What runs into some directories make of a world.
structure Unfolds (homes loose : Place → Prop) (w w' : World σ) : Prop where
  outlets : SameOutlets w w'
  tree : w.disk.Tree → w'.disk.Tree
  claims : ∀ q, w.disk.Claims homes q → w'.disk.Claims homes q
  turned : ∀ q, ¬w'.disk.Claims homes q → w.Turned w' homes loose q
  directory : ∀ q, (∀ home, homes home → Unkept home q) → w.disk.item? q = some .directory →
    w'.disk.item? q = some .directory
  file : ∀ q, (∀ home, homes home → Unkept home q) → (w.disk.file? q).isSome = true → (w'.disk.file? q).isSome = true

theorem SameOutlets.ahead (same : SameOutlets w w') : w'.Ahead homes q ↔ w.Ahead homes q := by
  unfold World.Ahead
  rw [same.path]

namespace Unfolds

theorem of_still (outlets : SameOutlets w w') (still : w'.disk = w.disk) : Unfolds homes loose w w' := by
  refine ⟨outlets, ?_, ?_, fun q _ => .same ?_, fun q _ => ?_, fun q _ => ?_⟩ <;> rw [still]
  · exact id
  · exact fun _ => id
  · exact id
  · exact id

theorem refl : Unfolds homes loose w w := of_still .refl rfl

theorem trans (first : Unfolds homes loose w middle) (second : Unfolds homes loose middle w') :
    Unfolds homes loose w w' := by
  refine ⟨first.outlets.trans second.outlets, fun tree => second.tree (first.tree tree),
    fun q claimed => second.claims q (first.claims q claimed), fun q free => ?_,
    fun q aside there => second.directory q aside (first.directory q aside there),
    fun q aside there => second.file q aside (first.file q aside there)⟩
  have early := first.turned q fun claimed => free (second.claims q claimed)
  cases second.turned q free with
  | same same =>
    cases early with
    | same before => exact .same (same.trans before)
    | made absent made ahead => exact .made absent (same.trans made) ahead
    | wrote may empty wrote => exact .wrote may empty (same.trans wrote)
  | made absent made ahead =>
    rw [first.outlets.ahead] at ahead
    cases early with
    | same before => exact .made (before.symm.trans absent) made ahead
    | made _ there _ =>
      rw [there] at absent
      cases absent
    | wrote _ _ there =>
      rw [there] at absent
      cases absent
  | wrote may empty wrote =>
    rw [first.outlets.outlet] at may
    cases early with
    | same before => exact .wrote may (before ▸ empty) wrote
    | made _ there _ => exact absurd there empty
    | wrote _ free _ => exact .wrote may free wrote

-- A file comes, or another content of one, where it may.
theorem put {content : ByteArray} (outlets : SameOutlets w w') (written : w'.disk = w.disk.put q (.file content))
    (may : w.Outlet q ∨ loose q ∨ w.disk.Claims homes q) (inside : q ≠ []) (free : w.disk.item? q ≠ some .directory)
    (parent : w.disk.Sound → w.disk.item? q.dropLast = some .directory) : Unfolds homes loose w w' := by
  have item (r : Place) : w'.disk.item? r = if r = q then some (.file content) else w.disk.item? r := by
    rw [written, Disk.item?_put _ _ _ _ inside]
  have claims : ∀ r, w.disk.Claims homes r → w'.disk.Claims homes r := by
    rintro r ⟨home, one, marked, leads⟩
    refine ⟨home, one, ?_, leads⟩
    unfold Disk.Marked at marked ⊢
    rw [item]
    split
    · rfl
    · exact marked
  refine ⟨outlets, fun tree => ?_, claims, fun r unclaimed => ?_, fun r _ there => ?_, fun r _ there => ?_⟩
  · rw [written]
    exact tree.file inside free (parent tree.sound)
  · by_cases same : r = q
    · subst same
      rcases may with outlet | stray | claimed
      · exact .wrote (.inl outlet) free (by rw [item, if_pos rfl])
      · exact .wrote (.inr stray) free (by rw [item, if_pos rfl])
      · exact absurd (claims r claimed) unclaimed
    · exact .same (by rw [item, if_neg same])
  · rw [item, if_neg]
    · exact there
    · rintro rfl
      exact free there
  · by_cases same : r = q
    · unfold Disk.file?
      rw [item, if_pos same]
      rfl
    · rwa [Disk.file?_congr ((item r).trans (if_neg same))]

-- Directories come on the way.
theorem grown {d : Disk} {sort : Place → Prop} (grown : Grown sort w.disk d) (tree : w.disk.Tree → d.Tree)
    (ahead : ∀ q, sort q → w.Ahead homes q) : Unfolds homes loose w { w with disk := d } := by
  refine ⟨⟨rfl, rfl⟩, tree, ?_, fun q _ => ?_, fun q _ => grown.directory, fun q _ there => ?_⟩
  · rintro q ⟨home, one, marked, leads⟩
    refine ⟨home, one, ?_, leads⟩
    unfold Disk.Marked at marked ⊢
    rcases grown.entry (metadataPlace home) with same | ⟨absent, _⟩
    · rwa [same]
    · rw [absent] at marked
      cases marked
  · rcases grown.entry q with same | ⟨absent, made, sorted⟩
    · exact .same same
    · exact .made absent made (ahead q sorted)
  · rwa [grown.file?]

theorem hear {n : Note} : Unfolds homes loose w (Action.hear n w) := by
  rcases hear_cases (n := n) (w := w) with still | ⟨j, p, old, content, heard, filed, there, written⟩
  · exact of_still .hear still
  · have present : (w.disk.item? p.place).isSome = true := by
      rw [there]
      rfl
    exact put .hear written (.inl (.inl ⟨j, p, heard, filed, rfl⟩)) (Disk.inside_of_file there) (by rw [there]; nofun)
      fun sound => sound p.place present

-- A repository stays one.
theorem marked {home : Place} (unfolds : Unfolds (· = home) loose w w') (marked : w.disk.Marked home) :
    w'.disk.Marked home := by
  obtain ⟨_, rfl, kept, _⟩ := unfolds.claims home ⟨home, rfl, marked, List.prefix_rfl⟩
  exact kept

variable {runner : Runner σ} {c : Call}

-- What a call changes lies in a repository, and so did what another project has lost by it.
theorem called (planting : Planting runner) (one : homes c.directory.place) :
    Unfolds homes loose w (Leads.asked runner c w) := by
  by_cases marked : (runner c w.git w.disk).2.2.Marked c.directory.place
  · have aside {q : Place} (away : ¬metadataPlace c.directory.place <+: q) :
        (Leads.asked runner c w).disk.item? q = w.disk.item? q := planting.aside _ _ _ _ away
    refine ⟨⟨rfl, rfl⟩, planting.tree _ _ _, ?_, fun q unclaimed => .same (aside fun inside => unclaimed ?_),
      fun q unkept there => ?_, fun q unkept there => ?_⟩
    · rintro q ⟨home, other, before, leads⟩
      by_cases away : metadataPlace c.directory.place <+: metadataPlace home
      · refine ⟨c.directory.place, one, marked, ?_⟩
        rcases List.prefix_concat_iff.mp away with same | above
        · rwa [(List.append_inj' same rfl).1]
        · exact (metadata_inside.trans above).trans leads
      · refine ⟨home, other, ?_, leads⟩
        unfold Disk.Marked at before ⊢
        rwa [aside away]
    · exact ⟨c.directory.place, one, marked, metadata_inside.trans inside⟩
    · rwa [aside (unkept _ one)]
    · rwa [Disk.file?_congr (aside (unkept _ one))]
  · exact of_still ⟨rfl, rfl⟩ (planting.idle _ _ _ marked)

end Unfolds

theorem unfolds_onward : Expansion.Onward (Unfolds (σ := σ) homes loose) :=
  ⟨fun _ => .refl, fun _ _ _ => .trans, fun _ _ => .hear⟩

/-! ### Courses -/

namespace Expansion

variable {α : Type} {runner : Runner σ} {e : Expansion} {l : Leeway} {tried most : List (String × String)}
  {ended : Option Failure} {source directory output file : Path} {names : List String} {u : Source.Unit}
  {comment : Source.Node} {asked : Option Path} {parse : String → Source.Unit}

-- The project goes into one of some directories, and other files may come outside of it only.
structure Sited (homes loose : Place → Prop) (directory : Path) : Prop where
  one : homes directory.place
  way : ∀ q, OnWay directory.parts q → q <+: directory.place
  strays : ∀ q, ¬directory.place <+: q → loose q

-- Before the directory is a repository no file of the project may be written.
abbrev Ready (l : Leeway) (w : World σ) : Prop := l.names = [] ∨ w.disk.Marked l.directory.place

theorem writing_unfolds (sited : Sited homes loose l.directory) (ready : Ready l w) {name : String} {content : ByteArray}
    {result : Except FileError Unit} {d : Disk} (listed : name ∈ l.names)
    (wrote : (DiskAction.write (l.directory.join name) content).run.run w.disk = (result, d)) :
    Unfolds homes loose w { w with disk := d } := by
  rcases write_cases wrote with ⟨_, rfl⟩ | ⟨_, writable, rfl⟩
  · exact .refl
  · have marked : w.disk.Marked l.directory.place := by
      rcases ready with none | marked
      · rw [none] at listed
        cases listed
      · exact marked
    refine .put ⟨rfl, rfl⟩ rfl (.inr ?_) (DiskAction.writable_inside writable) writable.noDirectory
      fun _ => writable.parent
    by_cases inside : l.directory.place <+: (l.directory.join name).place
    · exact .inr ⟨_, sited.one, marked, inside⟩
    · exact .inl (sited.strays _ inside)

theorem attempt_unfolds (planting : Planting runner) (sited : Sited homes loose l.directory) (ready : Ready l w)
    (attempt : Attempt l runner w tried ended w') : Unfolds homes loose w w' := by
  cases attempt with
  | hear n => exact .hear
  | look looked =>
    rw [run_pathExists] at looked
    refine .of_still ⟨rfl, rfl⟩ ?_
    split at looked <;> cases looked <;> rfl
  | grow sought made =>
    refine .grown (makeDirectories_grown made) (fun tree => DiskAction.makeDirectories_tree tree made) fun q on => ?_
    rcases sought with rfl | ⟨store, path, rfl⟩
    · exact .inl ⟨_, sited.one, sited.way q on⟩
    · obtain ⟨front, leads, ends⟩ := on
      exact .inr ⟨store, path, front, leads.trans store.parts.dropLast_prefix, ends⟩
  | write listed wrote => exact writing_unfolds sited ready listed wrote
  | mend listed named wrote =>
    rw [named] at wrote
    exact writing_unfolds sited ready listed wrote
  | evict => exact .of_still ⟨rfl, Registry.remove_path⟩ rfl
  | enrol => exact .of_still ⟨rfl, rfl⟩ rfl
  | save path wrote =>
    rcases write_cases wrote with ⟨_, rfl⟩ | ⟨_, writable, rfl⟩
    · exact .refl
    · exact .put ⟨rfl, rfl⟩ rfl (.inl (.inr ⟨_, path, rfl⟩)) (DiskAction.writable_inside writable)
        writable.noDirectory fun _ => writable.parent
  | saved => exact .of_still ⟨rfl, rfl⟩ rfl
  | call here => exact .called planting (here ▸ sited.one)
  | refuse _ _ => exact .refl
  | read _ _ => exact .refl

-- The induction is on the course: from where the directory is a repository it stays one.
theorem course_unfolds (planting : Planting runner) (sited : Sited homes loose l.directory) (ready : Ready l w)
    (course : Course l runner w tried ended w') :
    Unfolds homes loose w w' ∧ (w.disk.Marked l.directory.place → w'.disk.Marked l.directory.place) := by
  have alone : Sited (· = l.directory.place) (fun _ => True) l.directory := ⟨rfl, sited.way, fun _ _ => trivial⟩
  have one {w w' : World σ} {tried : List (String × String)} {ended : Option Failure} (ready : Ready l w)
      (attempt : Attempt l runner w tried ended w') :
      Unfolds homes loose w w' ∧ (w.disk.Marked l.directory.place → w'.disk.Marked l.directory.place) :=
    ⟨attempt_unfolds planting sited ready attempt, Unfolds.marked (attempt_unfolds planting alone ready attempt)⟩
  induction course with
  | done => exact ⟨.refl, id⟩
  | cut last => exact one ready last
  | step first _ ih =>
    obtain ⟨begun, kept⟩ := one ready first
    obtain ⟨later, stays⟩ := ih (ready.imp_right kept)
    exact ⟨begun.trans later, stays ∘ kept⟩

theorem Tries.unfolds {good : α → Prop} {files : α → List (String × String)} {a : Action σ α}
    (planting : Planting runner) (sited : Sited homes loose l.directory) (ready : Ready l w)
    (tries : Tries l runner w most files good a) :
    Leads runner w (fun x w' => Unfolds homes loose w w' ∧ good x ∧
        (w.disk.Marked l.directory.place → w'.disk.Marked l.directory.place))
      (fun _ w' => Unfolds homes loose w w') a := by
  refine tries.mono (fun x w' ⟨course, fit⟩ => ?_) fun f w' ⟨_, _, course⟩ => (course_unfolds planting sited ready course).1
  obtain ⟨unfolds, kept⟩ := course_unfolds planting sited ready course
  exact ⟨unfolds, fit, kept⟩

theorem Tries.follows {good : α → Prop} {files : α → List (String × String)} {a : Action σ α}
    (planting : Planting runner) (sited : Sited homes loose l.directory) (ready : Ready l w)
    (tries : Tries l runner w most files good a) : Follows (Unfolds homes loose) runner w a :=
  (Tries.unfolds planting sited ready tries).mono (fun _ _ => And.left) fun _ _ => id

/-! ### The expansion of a file -/

theorem create_marks (planting : Planting runner) (sited : Sited homes loose l.directory) {identity : Identity}
    {message : String} : Leads runner w (fun _ w' => w'.disk.Marked l.directory.place) (fun _ _ => True)
      (Repository.create l.directory identity message) := by
  have begun : Leads runner w (fun _ w' => w'.disk.Marked l.directory.place) (fun _ _ => True)
      ((Repository.mk l.directory).command ["-c", "init.defaultBranch=main", "init", "--quiet"]) :=
    Leads.bind (Leads.callGit (c := .init l.directory) (fun text replied => planting.begins _ _ _ text replied)
      fun _ => trivial) fun _ _ marked => .value marked
  unfold Repository.create
  refine begun.bind fun _ middle marked => ?_
  have committing : Leads runner middle (fun _ w' => w'.disk.Marked l.directory.place) (fun _ _ => True)
      ((Repository.mk l.directory).commit message identity true) :=
    (Tries.unfolds planting sited (.inr marked) Repository.commit_tries).mono (fun _ _ ⟨_, _, kept⟩ => kept marked)
      fun _ _ _ => trivial
  exact committing.bind fun _ _ marked => .value marked

-- What has been prepared is a repository.
theorem prepare_marks (planting : Planting runner) (sited : Sited homes loose l.directory) {s : Scaffold} :
    Leads runner w (fun _ w' => w'.disk.Marked l.directory.place) (fun _ _ => True) (s.prepare l.directory) := by
  have any {α : Type} {w : World σ} {a : Action σ α} : Leads runner w (fun _ _ => True) (fun _ _ => True) a :=
    ⟨fun _ => trivial, fun _ => trivial⟩
  have looking {w : World σ} : Leads runner w (fun there w' => there = true → w'.disk.Marked l.directory.place)
      (fun _ _ => True) (Action.onDisk (Git.existsAt l.directory)) := by
    have looked : (Action.onDisk (Git.existsAt l.directory)).run runner w = _ := Scaffold.existsAt_run
    cases seen : w.disk.look (l.directory.join metadataName) with
    | error e => exact .of_failed (looked.trans (by rw [seen])) trivial
    | ok item =>
      refine .of_run (looked.trans (by rw [seen])) fun there => ?_
      obtain ⟨item, rfl⟩ := Option.isSome_iff_exists.mp there
      obtain ⟨_, found⟩ := Disk.look_some seen
      unfold Disk.Marked
      rw [← place_metadata, found]
      rfl
  have still {w : World σ} (marked : w.disk.Marked l.directory.place) {α : Type} {good : α → Prop} {a : Action σ α}
      (manages : Manages l runner w good a) :
      Leads runner w (fun _ w' => w'.disk.Marked l.directory.place) (fun _ _ => True) a :=
    (Tries.unfolds planting sited (.inr marked) manages).mono (fun _ _ ⟨_, _, kept⟩ => kept marked) fun _ _ _ => trivial
  unfold Scaffold.prepare
  refine any.bind fun there _ _ => ?_
  cases there with
  | false => exact any.bind fun _ _ _ => .noted (create_marks planting sited)
  | true =>
    refine looking.bind fun kept _ marked => ?_
    cases kept with
    | false => exact .noted (create_marks planting sited)
    | true =>
      refine (still (marked rfl) Repository.isDirty_tries).bind fun dirty _ marked => ?_
      cases dirty with
      | false => exact .value marked
      | true =>
        have heard {n : Note} {w : World σ} : Unfolds (· = l.directory.place) (fun _ => True) w (hear n w) := .hear
        exact .noted ((still (heard.marked marked) Repository.restore_tries).bind fun _ _ marked => .value marked)

theorem prepare_unfolds (planting : Planting runner) (sited : Sited homes loose l.directory) (bare : l.names = [])
    {s : Scaffold} : Leads runner w
      (fun r w' => Unfolds homes loose w w' ∧ r = ⟨l.directory⟩ ∧ w'.disk.Marked l.directory.place)
      (fun _ w' => Unfolds homes loose w w') (s.prepare l.directory) :=
  ((Tries.unfolds planting sited (.inl bare) Scaffold.prepare_tries).and (prepare_marks planting sited)).mono
    (fun _ _ ⟨⟨unfolds, same, _⟩, marked⟩ => ⟨unfolds, same, marked⟩) fun _ _ => And.left

-- Files are written from where the directory is a repository on.
theorem build_unfolds (planting : Planting runner) (sited : Sited homes loose directory)
    (lists : e.Lists source u names) {xml : String} :
    Follows (Unfolds homes loose) runner w (e.build source directory xml u) := by
  have prepared : Leads runner w
      (fun r w' => Unfolds homes loose w w' ∧ r = ⟨directory⟩ ∧ w'.disk.Marked directory.place)
      (fun _ w' => Unfolds homes loose w w') (e.scaffold.prepare directory) :=
    @prepare_unfolds σ w homes loose runner ((e.leeway source directory names).onwards []) planting sited rfl e.scaffold
  unfold build
  refine prepared.bind fun r middle ⟨begun, same, marked⟩ => ?_
  subst same
  exact Follows.after unfolds_onward begun
    (Tries.follows (l := e.leeway source directory names) planting sited (.inr marked) (fill_tries lists))

theorem expandComment_unfolds (planting : Planting runner) (sited : Sited homes loose (output.join source.stem)) :
    Follows (Unfolds homes loose) runner w (e.expandComment source output u comment) := by
  have evicting {w : World σ} : Follows (Unfolds homes loose) runner w (evict source.stem) :=
    Tries.follows (l := e.leeway source (output.join source.stem) []) planting sited (.inl rfl) evict_tries
  unfold expandComment
  dsimp only
  refine Follows.bind unfolds_onward (projectXml_follows unfolds_onward) fun xml _ => ?_
  split
  · exact Follows.noted unfolds_onward fun _ => .value .refl
  · refine Follows.noted unfolds_onward fun _ => ?_
    exact Follows.bind unfolds_onward evicting fun _ _ => build_unfolds planting sited lists_possible

theorem processFileBy_unfolds (planting : Planting runner) (source_is : source = file.resolve e.here)
    (directory_is : directory = (e.outputOf file asked).join source.stem) (sited : Sited homes loose directory) :
    Follows (Unfolds homes loose) runner w (e.processFileBy parse file asked) := by
  rw [directory_is] at sited
  exact processFileBy_follows unfolds_onward source_is fun text _ =>
    firstHandled_follows unfolds_onward fun _ _ => expandComment_unfolds planting sited

end Expansion
end InlineProject
