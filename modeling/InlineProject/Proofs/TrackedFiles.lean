import InlineProject.Proofs.ArtifactFiles
/-!
What becomes of one file of a repository: of the file in the directory, of the one in the index and of the one in the
last commit. A call may carry one of them over to another, but it does not invent any.
-/

namespace InlineProject

open InlineProject.Action InlineProject.Git
open InlineProject.DiskAction (OnWay)

namespace Git

variable {σ : Type} {runner : Runner σ} {k : Keeping σ} {home way : Place} {g : σ} {d : Disk}

-- The files of the index and those of the last commit; where there is no repository there are none.
def Keeping.index (k : Keeping σ) (g : σ) (d : Disk) (home : Place) : Tree :=
  ((k.archive g d home).map (·.index)).getD .empty

def Keeping.tree (k : Keeping σ) (g : σ) (d : Disk) (home : Place) : Tree :=
  ((k.archive g d home).map (·.tree)).getD .empty

-- All that there is of a file.
def Keeping.copies (k : Keeping σ) (g : σ) (d : Disk) (home way : Place) : List (Option ByteArray) :=
  [workingTree d home way, k.index g d home way, k.tree g d home way]

-- A program that changes no file of the directory but where changes are discarded, and then only into one that is
-- in the index or in the last commit. This goes for all calls, also for those that fail.
structure Restoring (runner : Runner σ) (k : Keeping σ) : Prop where
  kept {g : σ} {d : Disk} {home : Place} {a : Archive} (archived : k.archive g d home = some a) :
    (d.item? (metadataPlace home)).isSome = true
  same {g : σ} {d d' : Disk} {home : Place}
    (same : ∀ q, metadataPlace home <+: q → d'.item? q = d.item? q) :
    k.archive g d' home = k.archive g d home
  sound {c : Call} {g : σ} {d : Disk} (sound : d.Sound) : (runner c g d).2.2.Sound
  copies {c : Call} {g : σ} {d : Disk} (sound : d.Sound) (way : Place) :
    ∀ v ∈ k.copies (runner c g d).2.1 (runner c g d).2.2 c.directory.place way,
      v ∈ k.copies g d c.directory.place way
  files {c : Call} {g : σ} {d : Disk} (tame : c.Tame) (way : Place) :
    workingTree (runner c g d).2.2 c.directory.place way = workingTree d c.directory.place way
  index {c : Call} {g : σ} {d : Disk} (sound : d.Sound) (tame : c.Tame) (way : Place) :
    k.index (runner c g d).2.1 (runner c g d).2.2 c.directory.place way
        = k.index g d c.directory.place way ∨
      k.index (runner c g d).2.1 (runner c g d).2.2 c.directory.place way
        = workingTree d c.directory.place way
  -- What the calls do that are answered.
  add {directory : Path} {file text : String} {way : Place} {g g' : σ} {d d' : Disk}
    (named : Path.ofString file = ⟨.here, way⟩)
    (present : (workingTree d directory.place way).isSome = true)
    (reply : runner (.add directory file) g d = (.output text, g', d')) :
    (k.index g' d' directory.place way).isSome = true
  diff {directory : Path} {text : String} {g g' : σ} {d d' : Disk}
    (reply : runner (.diff directory) g d = (.output text, g', d')) :
    k.Lists (k.tree g d directory.place) (k.index g d directory.place) text
  commit {directory : Path} {text message : String} {identity : Identity} {allowEmpty : Bool} {g g' : σ}
    {d d' : Disk} (reply : runner (.commit directory message identity allowEmpty) g d = (.output text, g', d')) :
    k.tree g' d' directory.place = k.index g d directory.place

theorem copies_congr {d' : Disk} (archived : k.archive g d' home = k.archive g d home)
    (files : workingTree d' home = workingTree d home) : k.copies g d' home way = k.copies g d home way := by
  unfold Keeping.copies Keeping.index Keeping.tree
  rw [archived, files]

end Git

namespace Expansion

variable {σ : Type} {runner : Runner σ} {k : Keeping σ} {l : Leeway} {home way q : Place} {p : Path}
  {w middle w' : World σ}

/-! ### Steps -/

-- The copies of a file in a world.
def copies (k : Keeping σ) (home : Place) (w : World σ) (way : Place) : List (Option ByteArray) :=
  k.copies w.git w.disk home way

-- Where the files of a project go: into its directory, and not among what the program keeps there. Nor does the path
-- to the directory lead through that.
structure Fits (l : Leeway) (home : Place) : Prop where
  named : l.directory.place = home
  through : ∀ q ∈ l.directory.trail, Unkept home q
  inside : ∀ name ∈ l.names, ∃ way, (l.directory.join name).place = home ++ way ∧ way.head? ≠ some metadataName

-- What the steps of a run stand on.
structure Ground (home : Place) (w : World σ) : Prop where
  sound : w.disk.Sound
  apart : Apart home w

theorem onWay_cases (on : OnWay p.parts q) : q ∈ p.trail ∨ q = p.place := by
  obtain ⟨front, ⟨rest, leads⟩, rfl⟩ := on
  cases rest with
  | nil =>
    rw [List.append_nil] at leads
    rw [leads]
    exact .inr rfl
  | cons name back => exact .inl (Path.mem_trailFrom.mpr ⟨front, name, back, leads.symm, rfl⟩)

-- Neither the directory of a project nor one above its registry is made among what the program keeps.
theorem sought_unkept (fits : Fits l home) (apart : Apart home w)
    (sought : p = l.directory ∨ ∃ store, w.registry.path = some store ∧ p = store.parent)
    (on : OnWay p.parts q) : Unkept home q := by
  rcases sought with rfl | ⟨store, path, rfl⟩
  · rcases onWay_cases on with early | rfl
    · exact fits.through q early
    · rw [fits.named]
      exact unkept_of_aside not_below_home
  · obtain ⟨direct, outside⟩ := apart.store store path
    by_cases none : store.parts = []
    · obtain ⟨front, leads, rfl⟩ := on
      unfold Path.parent at leads
      dsimp only at leads
      rw [none, List.dropLast_nil, List.prefix_nil] at leads
      rw [leads]
      intro own
      exact metadata_deep (List.prefix_nil.mp own)
    · exact unkept_of_aside (direct.aside (fun below => outside below.1) q (Registry.trail_of_onWay none on))

theorem copies_beside (restoring : Restoring runner k) (beside : Beside home w w') :
    copies k home w' way = copies k home w way := by
  unfold copies
  rw [beside.git]
  exact copies_congr (restoring.same fun q own => beside.inside q (metadata_inside.trans own))
    (workingTree_congr fun _ _ => beside.inside _ (List.prefix_append _ _))

-- A step beside the directory, one that makes directories, one that writes a file of the project, or a call.
inductive Kind (l : Leeway) (runner : Runner σ) (home : Place) (w w' : World σ) : Prop where
  | beside (beside : Beside home w w')
  | grow {d : Disk} (grown : DiskAction.Grown (Unkept home) w.disk d) (same : w' = { w with disk := d })
  | write {name : String} {content : ByteArray} {way : Place} (listed : name ∈ l.names)
      (place : (l.directory.join name).place = home ++ way) (free : way.head? ≠ some metadataName)
      (writable : DiskAction.Writable w.disk (l.directory.join name) (home ++ way))
      (same : w' = { w with disk := w.disk.put (home ++ way) (.file content) })
  | call {c : Call} (here : c.directory.place = home) (tame : l.restores = true ∨ c.Tame)
      (same : w' = Leads.asked runner c w)

theorem step_kind (fits : Fits l home) (ground : Ground home w) (step : Step l runner w w') :
    Kind l runner home w w' := by
  cases step with
  | hear n => exact .beside (hear_beside ground.apart)
  | grow sought grown => exact .grow (grown.mono fun q on => sought_unkept fits ground.apart sought on) rfl
  | write listed writable =>
    obtain ⟨way, place, free⟩ := fits.inside _ listed
    rw [place] at writable ⊢
    exact .write listed place free writable rfl
  | take _ _ => exact .call fits.named (.inr (Call.tame_of_add rfl)) rfl
  | call here _ tame => exact .call (here ▸ fits.named) tame rfl
  | evict => exact .beside ⟨rfl, ⟨rfl, Registry.remove_path⟩, fun _ _ => rfl, fun _ _ => .rfl, id⟩
  | enrol => exact .beside ⟨rfl, ⟨rfl, rfl⟩, fun _ _ => rfl, fun _ _ => .rfl, id⟩
  | save path writable =>
    obtain ⟨_, outside⟩ := ground.apart.store _ path
    exact .beside (beside_put outside writable.noDirectory (fun _ => writable.parent) rfl ⟨rfl, rfl⟩ rfl)

theorem step_ground (restoring : Restoring runner k) (fits : Fits l home) (ground : Ground home w)
    (step : Step l runner w w') : Ground home w' := by
  refine ⟨?_, ground.apart.outlets (step_outlets step)⟩
  cases step_kind fits ground step with
  | beside beside => exact beside.sound ground.sound
  | grow grown same =>
    rw [same]
    exact grown.sound ground.sound
  | write _ _ _ writable same =>
    rw [same]
    exact writable.put_sound ground.sound
  | call _ _ same =>
    rw [same]
    exact restoring.sound ground.sound

-- The archive is not in the files of the project.
theorem archive_put (restoring : Restoring runner k) {g : σ} {d : Disk} {content : ByteArray}
    (inside : home ++ way ≠ []) (free : way.head? ≠ some metadataName) :
    k.archive g (d.put (home ++ way) (.file content)) home = k.archive g d home := by
  refine restoring.same fun q own => ?_
  rw [Disk.item?_put _ _ _ _ inside, if_neg]
  rintro rfl
  exact unkept_append free own

theorem copies_grown (restoring : Restoring runner k) {d : Disk}
    (grown : DiskAction.Grown (Unkept home) w.disk d) :
    copies k home { w with disk := d } way = copies k home w way := by
  refine copies_congr (restoring.same fun q own => ?_) (funext fun other => ?_)
  · rcases grown.entry q with same | ⟨_, _, unkept⟩
    · exact same
    · exact absurd own unkept
  · unfold workingTree
    split
    · rfl
    · rcases grown.entry (home ++ other) with same | ⟨absent, made, _⟩
      · rw [same]
      · rw [absent, made]

-- What there is of a file after a step was there before, or the step has written the file.
theorem step_copies (restoring : Restoring runner k) (fits : Fits l home) (ground : Ground home w)
    (step : Step l runner w w') (way : Place) :
    ∀ v ∈ copies k home w' way, v ∈ copies k home w way ∨
      (v.isSome = true ∧ ∃ name ∈ l.names, (l.directory.join name).place = home ++ way) := by
  intro v member
  cases step_kind fits ground step with
  | beside beside => exact .inl (copies_beside restoring beside ▸ member)
  | grow grown same =>
    rw [same, copies_grown restoring grown] at member
    exact .inl member
  | @write name content other listed place free writable same =>
    subst same
    have archived : k.archive w.git (w.disk.put (home ++ other) (.file content)) home = k.archive w.git w.disk home :=
      archive_put restoring (DiskAction.writable_inside writable) free
    unfold copies Keeping.copies Keeping.index Keeping.tree at member ⊢
    dsimp only at member
    rw [archived, workingTree_put (DiskAction.writable_inside writable) free] at member
    rcases List.mem_cons.mp member with rfl | old
    · unfold Tree.put
      split
      · rename_i here
        exact .inr ⟨rfl, name, listed, here ▸ place⟩
      · exact .inl List.mem_cons_self
    · exact .inl (List.mem_cons_of_mem _ old)
  | call here _ same =>
    rw [same] at member
    subst here
    exact .inl (restoring.copies ground.sound way v member)

-- Files stand nowhere but where files of these names are written.
def Confined (k : Keeping σ) (l : Leeway) (home : Place) (w : World σ) : Prop :=
  ∀ way, ∀ v ∈ copies k home w way, v.isSome = true →
    ∃ name ∈ l.names, (l.directory.join name).place = home ++ way

-- A file is in the directory, in the index and in the last commit.
def Kept (k : Keeping σ) (home : Place) (w : World σ) (way : Place) : Prop :=
  ∀ v ∈ copies k home w way, v.isSome = true

-- A file is in the directory and in the index.
def Staged (k : Keeping σ) (home : Place) (w : World σ) (way : Place) : Prop :=
  (workingTree w.disk home way).isSome = true ∧ (k.index w.git w.disk home way).isSome = true

theorem step_staged (restoring : Restoring runner k) (fits : Fits l home) (ground : Ground home w)
    (settled : l.restores = false) (step : Step l runner w w') (staged : Staged k home w way) :
    Staged k home w' way := by
  have carried {w₁ : World σ} (same : copies k home w₁ way = copies k home w way) : Staged k home w₁ way := by
    unfold copies Keeping.copies at same
    obtain ⟨file, rest⟩ := List.cons.inj same
    exact ⟨file ▸ staged.1, (List.cons.inj rest).1 ▸ staged.2⟩
  cases step_kind fits ground step with
  | beside beside => exact carried (copies_beside restoring beside)
  | grow grown same =>
    rw [same]
    exact carried (copies_grown restoring grown)
  | @write name content other listed place free writable same =>
    subst same
    have archived : k.archive w.git (w.disk.put (home ++ other) (.file content)) home = k.archive w.git w.disk home :=
      archive_put restoring (DiskAction.writable_inside writable) free
    unfold Staged Keeping.index
    dsimp only
    rw [archived, workingTree_put (DiskAction.writable_inside writable) free]
    refine ⟨?_, staged.2⟩
    unfold Tree.put
    split
    · rfl
    · exact staged.1
  | @call c here tame same =>
    have tame : c.Tame := tame.resolve_left (by rw [settled]; exact Bool.false_ne_true)
    subst here same
    refine ⟨?_, ?_⟩
    · exact (congrArg Option.isSome (restoring.files tame way)).trans staged.1
    · rcases restoring.index ground.sound tame way with old | new
      · exact (congrArg Option.isSome old).trans staged.2
      · exact (congrArg Option.isSome new).trans staged.1

/-! ### Rows of steps -/

theorem steps_ground (restoring : Restoring runner k) (fits : Fits l home) (ground : Ground home w)
    (steps : Steps l runner w w') : Ground home w' :=
  steps.keeps (fun ground step => step_ground restoring fits ground step) ground

theorem steps_confined (restoring : Restoring runner k) (fits : Fits l home) (ground : Ground home w)
    (confined : Confined k l home w) (steps : Steps l runner w w') : Confined k l home w' := by
  have keeps {w w' : World σ} (held : Ground home w ∧ Confined k l home w) (step : Step l runner w w') :
      Ground home w' ∧ Confined k l home w' := by
    refine ⟨step_ground restoring fits held.1 step, fun way v member there => ?_⟩
    rcases step_copies restoring fits held.1 step way v member with old | ⟨_, written⟩
    · exact held.2 way v old there
    · exact written
  exact (steps.keeps keeps ⟨ground, confined⟩).2

theorem steps_kept (restoring : Restoring runner k) (fits : Fits l home) (ground : Ground home w)
    (kept : Kept k home w way) (steps : Steps l runner w w') : Kept k home w' way := by
  have keeps {w w' : World σ} (held : Ground home w ∧ Kept k home w way) (step : Step l runner w w') :
      Ground home w' ∧ Kept k home w' way := by
    refine ⟨step_ground restoring fits held.1 step, fun v member => ?_⟩
    rcases step_copies restoring fits held.1 step way v member with old | ⟨there, _⟩
    · exact held.2 v old
    · exact there
  exact (steps.keeps keeps ⟨ground, kept⟩).2

theorem steps_staged (restoring : Restoring runner k) (fits : Fits l home) (ground : Ground home w)
    (settled : l.restores = false) (staged : Staged k home w way) (steps : Steps l runner w w') :
    Staged k home w' way := by
  have keeps {w w' : World σ} (held : Ground home w ∧ Staged k home w way) (step : Step l runner w w') :
      Ground home w' ∧ Staged k home w' way :=
    ⟨step_ground restoring fits held.1 step, step_staged restoring fits held.1 settled step held.2⟩
  exact (steps.keeps keeps ⟨ground, staged⟩).2

end Expansion
end InlineProject

/-! ### A program that keeps its repositories in memory -/

namespace InlineProject.Git

variable {home way : Place} {d d' : Disk} {text : String}

-- After a reset a file is as it was, or as it is in the stock.
theorem Stock.reset_files {s old : Stock} :
    workingTree (s.reset old home d) home way = workingTree d home way ∨
      workingTree (s.reset old home d) home way = s.tree way := by
  cases held : s.tree way with
  | some content =>
    obtain ⟨deep, free⟩ := s.inside _ (mem_of_tree held)
    have inside : home ++ way ≠ [] := fun root => deep (List.append_eq_nil_iff.mp root).2
    exact .inr (workingTree_exact.mpr ⟨free, reset_file inside held⟩)
  | none =>
    cases after : workingTree (s.reset old home d) home way with
    | none => exact .inr rfl
    | some content =>
      obtain ⟨free, present⟩ := workingTree_exact.mp after
      refine .inl (workingTree_exact.mpr ⟨free, ?_⟩).symm
      by_cases root : home ++ way = []
      · rw [root] at present
        cases present
      unfold reset at present
      rw [Disk.item?_remade, if_neg root] at present
      cases wrote : (s.written home).lookup (home ++ way) with
      | some item =>
        rw [wrote] at present
        obtain ⟨f, member, p, _, _, same, found⟩ := written_cases wrote
        obtain rfl := List.append_cancel_left same
        rcases found with rfl | ⟨_, rfl⟩
        · have some := tree_isSome member
          rw [held] at some
          cases some
        · cases present
      | none =>
        rw [wrote, Option.none_or] at present
        split at present
        · exact present
        · cases present

-- A file that is added takes the place of those that cannot stand beside it.
theorem Stock.tree_added {s : Stock} {content : ByteArray} {other : Place}
    {free : way ≠ [] ∧ way.head? ≠ some metadataName} :
    (s.add way content free).tree other
      = if other = way then some content else if meets way other then none else s.tree other := by
  unfold tree add
  dsimp only
  by_cases same : other = way
  · rw [if_pos same, same, List.lookup_cons_self]
  · have apart : (other == way) = false := beq_eq_false_iff_ne.mpr same
    rw [if_neg same, List.lookup_cons, apart]
    dsimp only
    rw [lookup_filter fun q => !meets way q]
    cases meets way other <;> rfl

namespace Shelf

variable {s s' : Shelf} {o : Order}

-- A file that is added is the one that stands in the directory, and where another one cannot stand beside it there is
-- none.
theorem added_index {index : Stock} {file : Path} (added : s.added? home d file = some index) (sound : d.Sound)
    (way : Place) : index.tree way = s.index.tree way ∨ index.tree way = workingTree d home way := by
  unfold added? at added
  split at added
  · rename_i free
    split at added
    · rename_i content _ present
      cases added
      rw [Stock.tree_added]
      by_cases here : way = file.parts
      · rw [if_pos here, here]
        exact .inr (workingTree_exact.mpr ⟨free.2, present⟩).symm
      · rw [if_neg here]
        split
        · rename_i meets
          refine .inr ?_
          cases there : workingTree d home way with
          | none => rfl
          | some other =>
            obtain ⟨_, stands⟩ := workingTree_exact.mp there
            refine absurd ?_ here
            rcases (Bool.or_eq_true _ _).mp meets with down | up
            · exact Memory.files_apart sound present stands (List.isPrefixOf_iff_prefix.mp down)
            · exact (Memory.files_apart sound stands present (List.isPrefixOf_iff_prefix.mp up)).symm
        · exact .inl rfl
    · cases added
  · cases added

-- Whatever is performed, nothing is made up: an index has what was in it, what the last commit has, or what stands in
-- the directory.
theorem perform_index (performed : s.perform home d o = some (text, s', d')) (sound : d.Sound) (way : Place) :
    s'.index.tree way = s.index.tree way ∨ (o = .reset ∧ s'.index.tree way = s.last.tree way) ∨
      s'.index.tree way = workingTree d home way := by
  cases performed_of_perform performed with
  | looked | cleaned | committed => exact .inl rfl
  | reset => exact .inr (.inl ⟨rfl, rfl⟩)
  | added taken => exact (added_index taken sound way).imp_right .inr

theorem perform_last (performed : s.perform home d o = some (text, s', d')) :
    s'.last = s.last ∨ s'.last = s.index := by
  cases performed_of_perform performed with
  | looked | reset | cleaned | added => exact .inl rfl
  | committed => exact .inr rfl

theorem perform_copies (performed : s.perform home d o = some (text, s', d')) (sound : d.Sound)
    (there : d.item? home = some .directory) (way : Place) :
    ∀ v ∈ [workingTree d' home way, s'.index.tree way, s'.last.tree way],
      v ∈ [workingTree d home way, s.index.tree way, s.last.tree way] := by
  intro v member
  simp only [List.mem_cons, List.not_mem_nil, or_false] at member ⊢
  rcases member with rfl | rfl | rfl
  · rcases perform_disk performed with rfl | ⟨_, rfl⟩ | ⟨_, rfl⟩
    · exact .inl rfl
    · exact Stock.reset_files.imp_right .inr
    · rw [Stock.clean_files there]
      cases held : s.index.tree way with
      | none => exact .inr (.inl rfl)
      | some _ => exact .inl rfl
  · rcases perform_index performed sound way with same | ⟨_, same⟩ | same
    · exact .inr (.inl same)
    · exact .inr (.inr same)
    · exact .inl same
  · rcases perform_last performed with same | same
    · exact .inr (.inr (by rw [same]))
    · exact .inr (.inl (by rw [same]))

end Shelf

namespace Memory

variable {g g' : Memory} {c : Call} {o : Order}

theorem trees_of_shelf {s : Shelf} (found : g.shelf? d home = some s) :
    keeping.index g d home = s.index.tree ∧ keeping.tree g d home = s.last.tree := by
  unfold Keeping.index Keeping.tree
  rw [archive_of_shelf found]
  exact ⟨rfl, Shelf.archive_tree⟩

theorem trees_of_none (found : g.shelf? d home = none) :
    keeping.index g d home = .empty ∧ keeping.tree g d home = .empty := by
  have none : keeping.archive g d home = none := by
    change (g.shelf? d home).map Shelf.archive = none
    rw [found]
    rfl
  unfold Keeping.index Keeping.tree
  rw [none]
  exact ⟨rfl, rfl⟩

-- Where a repository begins, the files of the directory are as they were.
theorem workingTree_begun :
    workingTree (d.put (metadataPlace home) .directory) home = workingTree d home := by
  refine workingTree_congr fun way free => ?_
  rw [Disk.item?_put _ _ _ _ metadata_deep, if_neg]
  intro same
  have own : metadataPlace home <+: home ++ way := by rw [same]
  exact unkept_append free own

theorem shelf_performed {s s' : Shelf} (found : g.shelf? d home = some s)
    (performed : s.perform home d o = some (text, s', d')) : (g.put home s').shelf? d' home = some s' := by
  refine shelf_put ?_
  rw [Shelf.perform_aside performed (.inr List.prefix_rfl)]
  exact shelf_kept found

theorem call_copies (sound : d.Sound) (way : Place) :
    ∀ v ∈ keeping.copies (runner c g d).2.1 (runner c g d).2.2 c.directory.place way,
      v ∈ keeping.copies g d c.directory.place way := by
  have turned : Turn c g d (runner c g d).1 (runner c g d).2.1 (runner c g d).2.2 := turn
  unfold Keeping.copies
  generalize (runner c g d).1 = reply, (runner c g d).2.1 = g', (runner c g d).2.2 = d' at turned ⊢
  cases turned with
  | refused => exact fun _ => id
  | performed ordered found performed =>
    obtain ⟨index, tree⟩ := trees_of_shelf found
    obtain ⟨index', tree'⟩ := trees_of_shelf (shelf_performed found performed)
    rw [index, tree, index', tree']
    exact Shelf.perform_copies performed sound (home_of_shelf sound found) way
  | begun ordered there fresh =>
    obtain ⟨index, tree⟩ := trees_of_none (shelf_none (g := g) fresh)
    obtain ⟨index', tree'⟩ := trees_of_shelf (shelf_begun (g := g) (d := d))
    rw [index, tree, index', tree', workingTree_begun]
    exact fun _ => id

theorem call_index (sound : d.Sound) (tame : c.Tame) (way : Place) :
    keeping.index (runner c g d).2.1 (runner c g d).2.2 c.directory.place way
        = keeping.index g d c.directory.place way ∨
      keeping.index (runner c g d).2.1 (runner c g d).2.2 c.directory.place way
        = workingTree d c.directory.place way := by
  have turned : Turn c g d (runner c g d).1 (runner c g d).2.1 (runner c g d).2.2 := turn
  generalize (runner c g d).1 = reply, (runner c g d).2.1 = g', (runner c g d).2.2 = d' at turned ⊢
  cases turned with
  | refused => exact .inl rfl
  | performed ordered found performed =>
    rw [(trees_of_shelf found).1, (trees_of_shelf (shelf_performed found performed)).1]
    rcases Shelf.perform_index performed sound way with same | ⟨rfl, _⟩ | same
    · exact .inl same
    · exact absurd (verb_of_order.1 ordered) tame.1
    · exact .inr same
  | begun ordered there fresh =>
    rw [(trees_of_none (shelf_none (g := g) fresh)).1, (trees_of_shelf (shelf_begun (g := g) (d := d))).1]
    exact .inl rfl

-- A call that is answered has been performed.
theorem turn_answered {g' : Memory} (ordered : Order.ofArguments c.arguments = some o) (other : o ≠ .init)
    (reply : runner c g d = (.output text, g', d')) :
    ∃ s s', g.shelf? d c.directory.place = some s ∧ s.perform c.directory.place d o = some (text, s', d') ∧
      g'.shelf? d' c.directory.place = some s' := by
  have turned : Turn c g d (runner c g d).1 (runner c g d).2.1 (runner c g d).2.2 := turn
  rw [reply] at turned
  cases turned with
  | performed ordered' found performed =>
    obtain rfl := Option.some.inj (ordered.symm.trans ordered')
    exact ⟨_, _, found, performed, shelf_performed found performed⟩
  | begun ordered' _ _ =>
    exact absurd (Option.some.inj (ordered.symm.trans ordered')) other

theorem call_files (tame : c.Tame) (way : Place) :
    workingTree (runner c g d).2.2 c.directory.place way = workingTree d c.directory.place way := by
  rcases disk_of_tame (g := g) (d := d) tame with same | ⟨_, made⟩
  · rw [same]
  · rw [made, workingTree_begun]

theorem add_indexed {directory : Path} {file : String} {g' : Memory} (named : Path.ofString file = ⟨.here, way⟩)
    (reply : runner (.add directory file) g d = (.output text, g', d')) :
    (keeping.index g' d' directory.place way).isSome = true := by
  obtain ⟨s, s', _, performed, found'⟩ := turn_answered (o := .add file) rfl nofun reply
  have indexed : keeping.index g' d' directory.place = s'.index.tree := (trees_of_shelf found').1
  rw [indexed]
  obtain ⟨index, added, same⟩ := Option.map_eq_some_iff.mp performed
  cases same
  unfold Shelf.added? at added
  rw [named] at added
  dsimp only at added
  split at added
  · split at added
    · cases added
      rw [Stock.tree_added, if_pos rfl]
      rfl
    · cases added
  · cases added

theorem diff_lists {directory : Path} {g' : Memory}
    (reply : runner (.diff directory) g d = (.output text, g', d')) :
    keeping.Lists (keeping.tree g d directory.place) (keeping.index g d directory.place) text := by
  obtain ⟨s, s', found, performed, _⟩ := turn_answered (o := .diff) rfl nofun reply
  cases performed
  obtain ⟨index, tree⟩ := trees_of_shelf found
  have index : keeping.index g d directory.place = s.index.tree := index
  have tree : keeping.tree g d directory.place = s.last.tree := tree
  rw [index, tree]
  exact ⟨s.differing, fun _ => Shelf.mem_differing, rfl⟩

theorem commit_tree {directory : Path} {message : String} {identity : Identity} {allowEmpty : Bool} {g' : Memory}
    (reply : runner (.commit directory message identity allowEmpty) g d = (.output text, g', d')) :
    keeping.tree g' d' directory.place = keeping.index g d directory.place := by
  have ordered : Order.ofArguments (Call.commit directory message identity allowEmpty).arguments
      = some (.commit message allowEmpty) := by
    cases allowEmpty <;> rfl
  obtain ⟨s, s', found, performed, found'⟩ := turn_answered ordered nofun reply
  have tree : keeping.tree g' d' directory.place = s'.last.tree := (trees_of_shelf found').2
  have index : keeping.index g d directory.place = s.index.tree := (trees_of_shelf found).1
  simp only [Shelf.perform] at performed
  split at performed
  · cases performed
    rw [tree, index]
    rfl
  · cases performed

theorem restoring : Restoring runner keeping where
  kept := lawful.kept
  same := lawful.same
  sound := call_sound
  copies := call_copies
  files := call_files
  index := call_index
  add named _ reply := add_indexed named reply
  diff := diff_lists
  commit := commit_tree

end Memory
end InlineProject.Git
