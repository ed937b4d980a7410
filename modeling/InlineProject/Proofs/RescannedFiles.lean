import InlineProject.Proofs.InPlaceRuns
/-!
A directory that is expanded in place and searched again. Nothing that was made is found; of the sources those are
lost that lie in a directory that has become a repository, which is the one of a project or holds one in the place
of its own metadata.
-/

namespace InlineProject

open InlineProject.Action InlineProject.Git

-- The directory of the project of a source that is expanded in place.
def Path.project (source : Path) : Place := (source.parent.join source.stem).place

/-! ### Searching again -/

-- Where something is there is something all the way to it.
theorem Disk.present_above {d : Disk} {place q : Place} (sound : d.Sound) (present : (d.item? q).isSome = true)
    (leads : place <+: q) : (d.item? place).isSome = true := by
  obtain ⟨way, rfl⟩ := leads
  by_cases last : way = []
  · rwa [last, List.append_nil] at present
  · rw [directory_above sound present last]
    rfl

namespace Scan

variable {σ : Type} {w w' : World σ} {homes : Place → Prop} {s : Scan} {start : Place} {names : List String}
  {root : Path} {suffixes : List String}

-- The journal and the registry are kept in no file that a search looks for or at, and on no way through a
-- repository.
structure Clear (root : Path) (suffixes : List String) (w : World σ) : Prop where
  ignored : ¬w.Outlet (root.parts ++ [ignoreFileName])
  mark : ∀ home, ¬w.Outlet (metadataPlace home)
  wanted : ∀ place name, w.Outlet (place ++ [name]) →
    (suffixes.map Lowercase.ofString).contains (Lowercase.ofString (Path.splitName name).2) = false
  way : ∀ p, w.registry.path = some p → metadataName ∉ p.parts

-- A repository above a file hides it, if it is below the root.
theorem hides_of_claims {d : Disk} {q : Place} (deep : ∀ home, homes home → Below start home) (claimed : d.Claims homes q)
    (inside : Below q (start ++ names)) : hides d start names = true := by
  obtain ⟨home, one, marked, leads⟩ := claimed
  refine hides_exact.mpr ⟨home, deep home one, ⟨leads.trans inside.1, ?_⟩, marked⟩
  rintro rfl
  exact inside.2 (leads.eq_of_length_le inside.1.length_le)

section Unfolds

variable (unfolds : Unfolds homes (fun _ => False) w w') (tree : w.disk.Tree)
  (deep : ∀ home, homes home → Below start home)

include unfolds tree deep

-- What was hidden stays hidden: its repository stays one, or is part of what another keeps of itself.
theorem hides_kept (hidden : hides w.disk start names = true) : hides w'.disk start names = true := by
  obtain ⟨home, above, inside, marked⟩ := hides_exact.mp hidden
  by_cases part : ∃ other, homes other ∧ metadataPlace other <+: metadataPlace home
  · obtain ⟨other, one, leads⟩ := part
    have claimed : w.disk.Claims homes home := by
      rcases List.prefix_concat_iff.mp leads with same | within
      · obtain rfl := (List.append_inj' same rfl).1
        exact ⟨_, one, marked, List.prefix_rfl⟩
      · exact ⟨other, one, Disk.present_above tree.sound marked leads, metadata_inside.trans within⟩
    exact hides_of_claims deep (unfolds.claims home claimed) inside
  · have unkept : ∀ other, homes other → Unkept other (metadataPlace home) := fun other one leads => part ⟨other, one, leads⟩
    refine hides_exact.mpr ⟨home, above, inside, ?_⟩
    unfold Disk.Marked at marked ⊢
    obtain ⟨item, there⟩ := Option.isSome_iff_exists.mp marked
    cases item with
    | directory =>
      rw [unfolds.directory _ unkept there]
      rfl
    | file content =>
      refine Disk.isSome_of_file (unfolds.file _ unkept ?_)
      unfold Disk.file?
      rw [there]
      rfl

-- A file that is not hidden was there before.
theorem file_before (clear : Clear root s.suffixes w) (passes : s.Passes [] names)
    (there : (w'.disk.file? (start ++ names)).isSome = true) (free : hides w'.disk start names = false) :
    (w.disk.file? (start ++ names)).isSome = true := by
  have unclaimed : ¬w'.disk.Claims homes (start ++ names) := by
    rintro ⟨home, one, marked, leads⟩
    by_cases same : start ++ names = home
    · -- a repository is a directory
      subst same
      have directory := Disk.directory_above (unfolds.tree tree).sound marked (List.cons_ne_nil _ _)
      unfold Disk.file? at there
      rw [directory] at there
      cases there
    · have hidden := hides_exact.mpr ⟨home, deep home one, ⟨leads, same⟩, marked⟩
      rw [free] at hidden
      cases hidden
  cases unfolds.turned _ unclaimed with
  | same same => rwa [← Disk.file?_congr same]
  | made _ made _ =>
    unfold Disk.file? at there
    rw [made] at there
    cases there
  | wrote may _ _ =>
    obtain ⟨front, name, rfl, wanted⟩ := passes.wanted
    rcases may with outlet | never
    · rw [← List.append_assoc] at outlet
      unfold Scan.wants at wanted
      rw [clear.wanted _ _ outlet] at wanted
      cases wanted
    · exact never.elim

-- A file that was not hidden is still there.
theorem file_after (there : (w.disk.file? (start ++ names)).isSome = true) (free : hides w.disk start names = false) :
    (w'.disk.file? (start ++ names)).isSome = true := by
  refine unfolds.file _ (fun home one leads => ?_) there
  have marked : w.disk.Marked home := Disk.present_above tree.sound (Disk.isSome_of_file there) leads
  have inside : Below home (start ++ names) := by
    refine ⟨metadata_inside.trans leads, ?_⟩
    intro same
    have long := leads.length_le
    rw [same] at long
    simp only [metadataPlace, List.length_append, List.length_singleton] at long
    omega
  have hidden := hides_exact.mpr ⟨home, deep home one, inside, marked⟩
  rw [free] at hidden
  cases hidden

theorem seen_again (clear : Clear root s.suffixes w) :
    s.Seen w'.disk start [] names ↔ s.Seen w.disk start [] names ∧ (!hides w'.disk start names) = true := by
  rw [seen_exact tree.sound, seen_exact (unfolds.tree tree).sound, List.append_nil, Bool.not_eq_true']
  constructor
  · rintro ⟨passes, there, free⟩
    refine ⟨⟨passes, file_before unfolds tree deep clear passes there free, ?_⟩, free⟩
    cases hidden : hides w.disk start names with
    | false => rfl
    | true => rw [← hides_kept unfolds tree deep hidden, free]
  · rintro ⟨⟨passes, there, free⟩, still⟩
    exact ⟨passes, file_after unfolds tree deep there free, still⟩

end Unfolds

-- The patterns that a file holds depend on its content alone.
theorem patternsAt_congr {d d' : Disk} {file : Path} {q : Place} (located : d.locate file = .ok q)
    (located' : d'.locate file = .ok q) (same : d'.file? q = d.file? q) : patternsAt d' file = patternsAt d file := by
  unfold patternsAt Disk.look
  rw [located, located']
  dsimp only
  unfold Disk.file? at same
  split at same <;> split at same <;> simp_all

theorem run_parts {d : Disk} {found : List Path} (ran : Scan.run d root suffixes = .ok found) : ∃ ignored,
    d.look root = .ok (some .directory) ∧ patternsAt d (root.join ignoreFileName) = .ok ignored ∧
      found = files ⟨root, suffixes, ignored⟩ d root.parts := by
  unfold Scan.run at ran
  split at ran
  · cases ran
  · cases ran
  · cases ran
  · rename_i seen
    split at ran
    · cases ran
    · rename_i ignored read
      cases ran
      exact ⟨ignored, seen, read, rfl⟩

theorem mem_files {d : Disk} {f : Path} (distinct : d.Distinct) :
    f ∈ s.files d start ↔ ∃ names, s.Seen d start [] names ∧ f = ⟨s.root.anchor, s.root.parts ++ names⟩ := by
  have listed : s.files d start = (s.below d start).map fun names => ⟨s.root.anchor, s.root.parts ++ names⟩ := rfl
  rw [listed, List.mem_map]
  constructor
  · rintro ⟨names, member, rfl⟩
    exact ⟨names, (mem_below distinct).mp member, rfl⟩
  · rintro ⟨names, seen, rfl⟩
    exact ⟨names, (mem_below distinct).mpr seen, rfl⟩

section Again

variable (unfolds : Unfolds homes (fun _ => False) w w') (tree : w.disk.Tree)
  (deep : ∀ home, homes home → Below root.parts home) (down : Path.parentName ∉ root.parts)

include deep in
-- At the root and directly in it no project keeps anything of its own.
theorem unkept_shallow {q : Place} (short : q.length ≤ root.parts.length + 1) : ∀ home, homes home → Unkept home q := by
  intro home one leads
  obtain ⟨⟨way, rfl⟩, other⟩ := deep home one
  have long := leads.length_le
  have some : 0 < way.length := List.length_pos_iff.mpr fun none => other (by rw [none, List.append_nil])
  simp only [metadataPlace, List.length_append, List.length_singleton] at long
  omega

include unfolds deep down in
theorem root_again (located : w.disk.locate root = .ok root.place) (there : w.disk.item? root.place = some .directory) :
    w'.disk.locate root = .ok root.place ∧ w'.disk.item? root.place = some .directory := by
  obtain ⟨clean, same, left, fit⟩ := Disk.locate_exact.mp located
  refine ⟨Disk.locate_exact.mpr ⟨clean, same, fun q on => ?_, fit⟩, unfolds.directory _ (unkept_shallow deep ?_) there⟩
  · refine unfolds.directory q (unkept_shallow deep ?_) (left q on)
    have short := (Path.trail_down down on).length_le
    omega
  · rw [Path.place_down down]
    omega

include unfolds tree deep in
-- The file of patterns in the root is what it was. A project in its place has found none there.
theorem ignored_again (silent : ¬w.Outlet (root.parts ++ [ignoreFileName])) :
    w'.disk.file? (root.parts ++ [ignoreFileName]) = w.disk.file? (root.parts ++ [ignoreFileName]) := by
  have unkept : ∀ home, homes home → Unkept home (root.parts ++ [ignoreFileName]) :=
    unkept_shallow deep (by simp only [List.length_append, List.length_singleton, Nat.le_refl])
  by_cases claimed : w'.disk.Claims homes (root.parts ++ [ignoreFileName])
  · obtain ⟨home, one, marked, leads⟩ := claimed
    have same : home = root.parts ++ [ignoreFileName] := by
      rcases List.prefix_concat_iff.mp leads with same | above
      · exact same
      · exact absurd (above.eq_of_length_le (deep home one).1.length_le) (deep home one).2
    have directory : w'.disk.item? home = some .directory :=
      Disk.directory_above (unfolds.tree tree).sound marked (List.cons_ne_nil _ _)
    rw [same] at directory
    have none : w'.disk.file? (root.parts ++ [ignoreFileName]) = none := by
      unfold Disk.file?
      rw [directory]
    cases old : w.disk.file? (root.parts ++ [ignoreFileName]) with
    | none => exact none
    | some content =>
      have kept := unfolds.file _ unkept (by rw [old]; rfl)
      rw [none] at kept
      cases kept
  · cases unfolds.turned _ claimed with
    | same same => exact Disk.file?_congr same
    | made absent made _ =>
      unfold Disk.file?
      rw [absent, made]
    | wrote may _ _ => exact absurd (may.resolve_right id) silent

include unfolds tree deep down in
-- A search after such runs gives what it gave before but for what is hidden now.
theorem run_again {before : List Path} (clear : Clear root suffixes w)
    (found : Scan.run w.disk root suffixes = .ok before) :
    ∃ after, Scan.run w'.disk root suffixes = .ok after ∧ after.Sublist before ∧
      ∀ names, (⟨root.anchor, root.parts ++ names⟩ : Path) ∈ before →
        ((⟨root.anchor, root.parts ++ names⟩ : Path) ∉ after ↔ hides w'.disk root.parts names = true) := by
  obtain ⟨ignored, seen, read, rfl⟩ := run_parts found
  obtain ⟨located, there⟩ := Disk.look_some seen
  obtain ⟨located', there'⟩ := root_again unfolds deep down located there
  have entering {d : Disk} (located : d.locate root = .ok root.place) (there : d.item? root.place = some .directory) :
      d.locate (root.join ignoreFileName) = .ok (root.parts ++ [ignoreFileName]) := by
    rw [← Path.place_down down]
    exact Disk.locate_child located there (by decide) (by decide) (by decide)
  have again : Scan.run w'.disk root suffixes = .ok (files ⟨root, suffixes, ignored⟩ w'.disk root.parts) := by
    have look : w'.disk.look root = .ok (some .directory) := by rw [Disk.look_located located', there']
    have same := patternsAt_congr (entering located there) (entering located' there')
      (ignored_again unfolds tree deep clear.ignored)
    unfold Scan.run
    rw [look]
    dsimp only
    rw [same, read]
  have kept := @below_filter _ _ ⟨root, suffixes, ignored⟩ root.parts (fun names => !hides w'.disk root.parts names)
    tree.distinct (unfolds.tree tree).distinct fun names => seen_again unfolds tree deep clear
  refine ⟨_, again, ?_, fun names listed => ?_⟩
  · change (List.map _ (Scan.below _ _ _)).Sublist (List.map _ (Scan.below _ _ _))
    rw [kept]
    exact List.filter_sublist.map _
  · obtain ⟨same, seen, ends⟩ := (mem_files tree.distinct).mp listed
    obtain rfl : names = same := List.append_cancel_left (Path.mk.inj ends).2
    rw [mem_files (unfolds.tree tree).distinct]
    constructor
    · intro lost
      by_contra free
      refine lost ⟨names, (seen_again unfolds tree deep clear).mpr ⟨seen, ?_⟩, rfl⟩
      rw [Bool.not_eq_true', Bool.eq_false_of_not_eq_true free]
    · rintro hidden ⟨same, seen, ends⟩
      obtain rfl : names = same := List.append_cancel_left (Path.mk.inj ends).2
      have free := ((seen_again unfolds tree deep clear).mp seen).2
      rw [hidden] at free
      cases free

end Again

end Scan

/-! ### Runs -/

-- What may come outside of the directory has not come.
theorem Unfolds.settle {σ : Type} {w w' : World σ} {homes loose : Place → Prop} (unfolds : Unfolds homes loose w w')
    (files : ∀ q, loose q → ¬w.Outlet q → w'.disk.file? q = w.disk.file? q) : Unfolds homes (fun _ => False) w w' := by
  refine ⟨unfolds.outlets, unfolds.tree, unfolds.claims, fun q free => ?_, unfolds.directory, unfolds.file⟩
  cases unfolds.turned q free with
  | same same => exact .same same
  | made absent made ahead => exact .made absent made ahead
  | @wrote content may free wrote =>
    by_cases outlet : w.Outlet q
    · exact .wrote (.inl outlet) free wrote
    · have same := files q (may.resolve_left outlet) outlet
      have new : w'.disk.file? q = some content := by
        unfold Disk.file?
        rw [wrote]
      have old : w.disk.item? q = some (.file content) := by
        rw [same] at new
        unfold Disk.file? at new
        split at new
        · rename_i found
          rw [found, Option.some.inj new]
        · cases new
      exact .same (wrote.trans old.symm)

namespace Expansion

variable {σ : Type} {runner : Runner σ} {e : Expansion} {source p : Path} {w w' : World σ} {homes : Place → Prop}
  {o : Outcome} {done results : List (Path × Outcome)} {asked : Option Path}

-- The names on the way to a source, none of which is a step upwards.
structure Named (source : Path) : Prop where
  absolute : source.anchor = .root
  some : source.parts ≠ []
  plain : ∀ n ∈ source.parts, Path.Plain n ∧ n ≠ Path.parentName

theorem Named.down (named : Named source) : Path.parentName ∉ source.parts :=
  fun member => (named.plain _ member).2 rfl

theorem Named.stem (named : Named source) (own : source.stem ∉ [Path.hereName, Path.parentName]) :
    Path.Plain source.stem ∧ source.stem ≠ Path.parentName := by
  have last : source.name ∈ source.parts := by
    unfold Path.name
    rw [List.getLast?_eq_some_getLast named.some]
    exact List.getLast_mem named.some
  have plain := (named.plain _ last).1
  simp only [List.mem_cons, List.not_mem_nil, or_false, not_or] at own
  exact ⟨⟨Path.stem_some plain.1, own.1, Path.stem_slash plain.2.2⟩, own.2⟩

theorem Named.home (named : Named source) (own : source.stem ∉ [Path.hereName, Path.parentName]) :
    source.parent.join source.stem = ⟨.root, source.parts.dropLast ++ [source.stem]⟩ := by
  obtain ⟨plain, _⟩ := named.stem own
  unfold Path.join
  rw [Path.ofString_plain plain]
  cases source with
  | mk anchor parts =>
    cases named.absolute
    rfl

theorem Named.home_down (named : Named source) (own : source.stem ∉ [Path.hereName, Path.parentName]) :
    Path.parentName ∉ source.parts.dropLast ++ [source.stem] := by
  intro up
  rcases List.mem_append.mp up with above | last
  · exact named.down (List.mem_of_mem_dropLast above)
  · exact (named.stem own).2 (List.mem_singleton.mp last).symm

theorem Named.project (named : Named source) (own : source.stem ∉ [Path.hereName, Path.parentName]) :
    source.project = source.parts.dropLast ++ [source.stem] := by
  unfold Path.project
  rw [named.home own]
  exact Path.place_down (p := ⟨.root, _⟩) (named.home_down own)

-- A run over one source whose project lies beside it.
theorem processFile_unfolds (planting : Planting runner) (beside : e.configuration.output = none)
    (named : Named source) (own : source.stem ∉ [Path.hereName, Path.parentName]) (one : homes source.project)
    (ran : (e.processFile source none).run runner w = (.ok o, w')) : Unfolds homes (fun _ => False) w w' := by
  have source_is : source = source.resolve e.here := (Path.resolve_down named.absolute named.down).symm
  have output_is : source.parent = e.outputOf source none := by
    unfold outputOf
    rw [beside, ← source_is]
    rfl
  have directory_is : source.parent.join source.stem = (e.outputOf source none).join source.stem := by rw [← output_is]
  have place : (source.parent.join source.stem).place = source.parts.dropLast ++ [source.stem] := named.project own
  have sited : Sited homes (fun q => ¬(source.parent.join source.stem).place <+: q) (source.parent.join source.stem) := by
    refine ⟨one, fun q on => ?_, fun _ => id⟩
    rw [place]
    rw [named.home own] at on
    exact DiskAction.onWay_down (named.home_down own) on
  have unfolds := (processFileBy_unfolds planting source_is directory_is sited).well ran
  have confines : (e.projectReach source (source.parent.join source.stem)
      fun q => (source.parent.join source.stem).place <+: q).Confines runner := by
    refine confines_reach fun c g d q here away => Disk.file?_congr (planting.aside _ _ _ _ fun inside => away ?_)
    rw [← here]
    exact metadata_inside.trans inside
  have ends : Ends runner _ w (fun _ => True) (e.processFile source none) :=
    processFileBy_ends source_is output_is rfl confines
  refine unfolds.settle fun q away silent => (ends.well ran).1.files q ?_ silent
  have absolute : (source.parent.join source.stem).isAbsolute = true := by
    rw [named.home own]
    rfl
  rintro (inside | ⟨name, _, rfl, taken⟩)
  · exact away inside
  · exact away (inside_of_relative absolute taken)

-- The induction is on the files, which are expanded one after another.
theorem processFiles_follows {R : World σ → World σ → Prop} (onward : Onward R) {files : List Path}
    (each : ∀ f ∈ files, ∀ o middle w', R w middle → (e.processFile f asked).run runner middle = (.ok o, w') → R middle w')
    (ran : (e.processFiles asked files done).run runner w = (.ok results, w')) : R w w' := by
  suffices all : ∀ middle done, R w middle → (e.processFiles asked files done).run runner middle = (.ok results, w') →
      R middle w' from all w done (onward.refl w) ran
  clear ran
  induction files with
  | nil =>
    intro middle done _ ran
    obtain ⟨_, rfl⟩ := pure_parts ran
    exact onward.refl _
  | cons f rest ih =>
    intro middle done begun ran
    unfold processFiles at ran
    obtain ⟨o, next, first, later⟩ := bind_parts ran
    have step := each f List.mem_cons_self o _ _ begun first
    exact onward.trans _ _ _ step
      (ih (fun f member => each f (List.mem_cons_of_mem _ member)) _ _ (onward.trans _ _ _ begun step) later)

theorem filesAt_parts {files : List Path} (ran : (e.filesAt p).run runner w = (.ok files, w')) :
    w' = w ∧ (files = [p] ∨ Scan.run w.disk (p.resolve e.here) e.configuration.suffixes = .ok files) := by
  unfold filesAt at ran
  obtain ⟨there, middle, looked, ran⟩ := bind_parts ran
  obtain ⟨d, seen, rfl⟩ := onDisk_parts looked
  rw [DiskAction.run_isDirectory] at seen
  obtain rfl : d = w.disk := by
    split at seen
    · cases seen
      rfl
    · cases seen
  cases there with
  | false =>
    obtain ⟨rfl, rfl⟩ := pure_parts ran
    exact ⟨rfl, .inl rfl⟩
  | true =>
    rw [if_pos rfl] at ran
    obtain ⟨x, y, got, ran⟩ := bind_parts ran
    cases got
    split at ran
    · rename_i found scanned
      obtain ⟨rfl, rfl⟩ := pure_parts ran
      exact ⟨rfl, .inr scanned⟩
    · cases ran

-- What a search finds lies below its root, and the directory of its project does.
theorem found_named {root : Path} {suffixes : List String} {before : List Path} (tree : w.disk.Tree)
    (plain : ∀ q, (w.disk.item? q).isSome = true → ∀ n ∈ q, Path.Plain n ∧ n ≠ Path.parentName)
    (absolute : root.anchor = .root) (found : Scan.run w.disk root suffixes = .ok before) {f : Path} (listed : f ∈ before) :
    ∃ names, f = ⟨.root, root.parts ++ names⟩ ∧ names ≠ [] ∧ Named f ∧
      (w.disk.item? f.parts).isSome = true ∧ Scan.hides w.disk root.parts names = false := by
  obtain ⟨ignored, _, _, rfl⟩ := Scan.run_parts found
  obtain ⟨names, seen, rfl⟩ := (Scan.mem_files tree.distinct).mp listed
  obtain ⟨passes, there, free⟩ := (Scan.seen_exact tree.sound).mp seen
  rw [List.append_nil] at there free
  have some : names ≠ [] := by
    rintro rfl
    exact passes.elim
  have present := Disk.isSome_of_file there
  refine ⟨names, by rw [absolute], some, ⟨absolute, List.append_ne_nil_of_right_ne_nil _ some, plain _ present⟩,
    present, free⟩

-- Where a path leads to a directory no text is read.
theorem textAt_directory {d : Disk} {text : String} (there : d.item? source.place = some .directory) :
    textAt d source ≠ .ok text := by
  unfold textAt DiskAction.read
  rw [DiskAction.run_bind, DiskAction.run_locate]
  cases located : d.locate source with
  | error cause => nofun
  | ok q =>
    obtain rfl := Disk.locate_place located
    dsimp only
    rw [DiskAction.run_bind, DiskAction.run_get]
    dsimp only
    rw [there]
    nofun

-- Where a repository has come from: from a project above, from its own, or from one in the place of its metadata.
theorem repository_origin {before : List Path} {root : Path} {suffixes : List String} {home q : Place}
    (unfolds : Unfolds (fun home => ∃ source ∈ before, source.project = home) (fun _ => False) w w')
    (tree : w.disk.Tree) (clear : Scan.Clear root suffixes w)
    (deep : ∀ home, (∃ source ∈ before, source.project = home) → Below root.parts home)
    (proper : ∀ source ∈ before, source.project = source.parts.dropLast ++ [source.stem] ∧
      (w.disk.item? source.parts).isSome = true)
    (bare : ¬w.disk.Marked home) (above : Below root.parts home) (inside : Below home q) (marked : w'.disk.Marked home) :
    ∃ home, Below root.parts home ∧ Below home q ∧ w'.disk.Marked home ∧
      ∃ source ∈ before, source.project = home ∨ source.project = metadataPlace home := by
  by_cases claimed : w'.disk.Claims (fun home => ∃ source ∈ before, source.project = home) (metadataPlace home)
  · obtain ⟨other, ⟨source, listed, same⟩, kept, leads⟩ := claimed
    rcases List.prefix_concat_iff.mp leads with equal | within
    · exact ⟨home, above, inside, marked, source, listed, .inr (same.trans equal)⟩
    · refine ⟨other, deep other ⟨source, listed, same⟩, ⟨within.trans inside.1, ?_⟩, kept, source, listed, .inl same⟩
      rintro rfl
      exact inside.2 (inside.1.eq_of_length_le within.length_le).symm
  · unfold Disk.Marked at bare marked
    cases unfolds.turned _ claimed with
    | same same => exact absurd (same ▸ marked) bare
    | made _ _ ahead =>
      rcases ahead with ⟨other, ⟨source, listed, same⟩, leads⟩ | ⟨store, path, front, leads, ends⟩
      · obtain ⟨project, present⟩ := proper source listed
        rw [← same, project] at leads
        rcases List.prefix_concat_iff.mp leads with equal | within
        · exact ⟨home, above, inside, marked, source, listed, .inr (project.trans equal.symm)⟩
        · exact absurd (Disk.present_above tree.sound present (within.trans source.parts.dropLast_prefix)) bare
      · have last : metadataName ∈ (Path.endFrom [] front).drop 0 := by
          rw [← ends]
          exact List.mem_append_right _ List.mem_cons_self
        rcases Path.mem_drop_endFrom last with none | on
        · cases none
        · exact absurd (leads.subset on) (clear.way store path)
    | wrote may _ _ => exact absurd (may.resolve_right id) (clear.mark home)

-- A directory is expanded in place, and what its search finds afterwards are the files of before, in the same order,
-- without those that lie in a directory that has become a repository. It is the directory of the project of a file
-- that was found, or that one is where it would keep its metadata.
theorem rescan_exact {before : List Path} (planting : Planting runner) (beside : e.configuration.output = none)
    (tree : w.disk.Tree)
    (plain : ∀ q, (w.disk.item? q).isSome = true → ∀ n ∈ q, Path.Plain n ∧ n ≠ Path.parentName)
    (clear : Scan.Clear (p.resolve e.here) e.configuration.suffixes w)
    (found : Scan.run w.disk (p.resolve e.here) e.configuration.suffixes = .ok before)
    (own : ∀ f ∈ before, f.stem ∉ [Path.hereName, Path.parentName])
    (ran : (e.processPaths [p] none).run runner w = (.ok results, w')) :
    ∃ after, Scan.run w'.disk (p.resolve e.here) e.configuration.suffixes = .ok after ∧ after.Sublist before ∧
      ∀ f ∈ before, f ∉ after ↔ ∃ home, Below (p.resolve e.here).parts home ∧ Below home f.parts ∧
        w'.disk.Marked home ∧ ∃ source ∈ before, source.project = home ∨ source.project = metadataPlace home := by
  have down : Path.parentName ∉ (p.resolve e.here).parts := Path.resolve_notMem
  have named {f : Path} (listed : f ∈ before) := found_named tree plain rfl found listed
  have deep : ∀ home, (∃ source ∈ before, source.project = home) → Below (p.resolve e.here).parts home := by
    rintro _ ⟨source, listed, rfl⟩
    obtain ⟨names, same, some, named, _⟩ := named listed
    rw [named.project (own _ listed), same, List.dropLast_append_of_ne_nil some, List.append_assoc]
    exact below_append (List.append_ne_nil_of_right_ne_nil _ (List.cons_ne_nil _ _))
  have onward : Onward (σ := σ) (Unfolds (fun home => ∃ source ∈ before, source.project = home) fun _ => False) :=
    unfolds_onward
  have unfolds : Unfolds (fun home => ∃ source ∈ before, source.project = home) (fun _ => False) w w' := by
    unfold processPaths processFrom at ran
    obtain ⟨files, middle, listing, rest⟩ := bind_parts ran
    obtain ⟨rfl, files_are⟩ := filesAt_parts listing
    obtain ⟨all, ended, expanded, rest⟩ := bind_parts rest
    obtain ⟨_, rfl⟩ := pure_parts rest
    refine processFiles_follows onward (fun f member o w₁ w₂ begun ran => ?_) expanded
    rcases files_are with rfl | again
    · -- a directory that is not found as one is not read either
      rw [List.mem_singleton.mp member] at ran
      obtain ⟨_, seen, _⟩ := Scan.run_parts found
      refine (processFileBy_follows onward rfl fun text read => absurd read (textAt_directory ?_)).well ran
      refine (onward.trans _ _ _ begun (onward.hear _ _)).directory _ (fun home one leads => ?_) (Disk.look_some seen).2
      rw [Path.place_down down] at leads
      exact (deep home one).2 ((metadata_inside.trans leads).eq_of_length_le (deep home one).1.length_le)
    · obtain rfl := Except.ok.inj (again.symm.trans found)
      obtain ⟨_, _, _, proper, _⟩ := named member
      exact processFile_unfolds planting beside proper (own f member) ⟨f, member, rfl⟩ ran
  obtain ⟨after, again, less, lost⟩ := Scan.run_again unfolds tree deep down clear found
  refine ⟨after, again, less, fun f listed => ?_⟩
  obtain ⟨names, same, some, proper, present, free⟩ := named listed
  have parts : f.parts = (p.resolve e.here).parts ++ names := by rw [same]
  have hidden : f ∉ after ↔ Scan.hides w'.disk (p.resolve e.here).parts names = true := by
    rw [same] at listed ⊢
    exact lost names listed
  rw [hidden, Scan.hides_exact, parts]
  constructor
  · rintro ⟨home, above, inside, marked⟩
    have bare : ¬w.disk.Marked home := fun before => by
      rw [Scan.hides_exact.mpr ⟨home, above, inside, before⟩] at free
      cases free
    refine repository_origin unfolds tree clear deep (fun source listed => ?_) bare above inside marked
    obtain ⟨_, _, _, proper, present, _⟩ := named listed
    exact ⟨proper.project (own source listed), present⟩
  · rintro ⟨home, above, inside, marked, _⟩
    exact ⟨home, above, inside, marked⟩

/-! ### A source beside a directory of its name -/

-- What beginning a repository adds to a disk: no more than what marks it.
def sown (d : Disk) (home : Place) : Disk :=
  if d.item? home = some .directory ∧ d.item? (metadataPlace home) = none then d.put (metadataPlace home) .directory
  else d

-- A program that begins repositories and changes nothing else.
def sower : Runner Unit := fun c g d =>
  if c = .init c.directory then
    if ((sown d c.directory.place).item? (metadataPlace c.directory.place)).isSome then
      (.output "", g, sown d c.directory.place)
    else (.failed (.code 128) none, g, d)
  else if c = .diff c.directory then (.output "Tool.cs\nTool.csproj\n", g, d)
  else if c = .revParse c.directory then (.output "1\n", g, d)
  else (.output "", g, d)

def partSource : Path := ⟨.root, toolHome ++ ["Part.cs"]⟩

-- A source, and a directory that is named like it and holds another one.
def field : World Unit where
  disk := ⟨[(["work"], .directory), (["work", "Tool.cs"], .file toolText.toUTF8), (toolHome, .directory),
    (partSource.parts, .file "class Part { }\n".toUTF8)]⟩
  now := default
  git := ()
  calls := []
  journal := none
  console := []
  registry := .empty (some registryAtBench)

def fieldScan : Scan := ⟨⟨.root, ["work"]⟩, atBench.configuration.suffixes, []⟩

theorem field_names : Scan.fileNames field.disk ["work"] = ["Tool.cs"] ∧ Scan.directoryNames field.disk ["work"] = ["Tool"] ∧
    Scan.fileNames field.disk ["work", "Tool"] = ["Part.cs"] ∧
    Scan.directoryNames field.disk ["work", "Tool"] = [] := by
  refine ⟨?_, ?_, ?_, ?_⟩
  all_goals exact List.mergeSort_of_pairwise (by decide +kernel)

theorem field_found : Scan.run field.disk ⟨.root, ["work"]⟩ atBench.configuration.suffixes = .ok [toolSource, partSource] := by
  obtain ⟨files, directories, inner, none⟩ := field_names
  have looked : field.disk.look ⟨.root, ["work"]⟩ = .ok (some .directory) := by decide +kernel
  have ignored : Scan.patternsAt field.disk (Path.join ⟨.root, ["work"]⟩ Scan.ignoreFileName) = .ok [] := by rfl
  have wanted : fieldScan.wants [] "Tool.cs" = true ∧ fieldScan.wants ["Tool"] "Part.cs" = true ∧
      fieldScan.enters field.disk ["work"] [] "Tool" = true := by decide +kernel
  have height : field.disk.height = 3 := by decide +kernel
  have found : fieldScan.namesFrom field.disk ["work"] 4 [] = [["Tool.cs"], ["Tool", "Part.cs"]] := by
    simp only [Scan.namesFrom, List.append_nil, List.nil_append, List.cons_append, files, directories, inner, none,
      List.filter, wanted, List.map_cons, List.map_nil, List.flatMap_cons, List.flatMap_nil]
  unfold Scan.run
  rw [looked]
  dsimp only
  rw [ignored]
  change Except.ok (Scan.files fieldScan field.disk ["work"]) = _
  unfold Scan.files
  rw [height, found]
  rfl

theorem sown_tree {d : Disk} {home : Place} (tree : d.Tree) : (sown d home).Tree := by
  unfold sown
  split
  · rename_i new
    refine ⟨Disk.put_sound tree.sound metadata_deep ?_ (.inr rfl), Disk.put_distinct tree.distinct⟩
    unfold metadataPlace
    rw [List.dropLast_concat, new.1]
  · exact tree

theorem sown_aside {d : Disk} {home q : Place} (away : ¬metadataPlace home <+: q) : (sown d home).item? q = d.item? q := by
  unfold sown
  split
  · rw [Disk.item?_put _ _ _ _ metadata_deep, if_neg]
    rintro rfl
    exact away List.prefix_rfl
  · rfl

-- Either a repository is begun and there is one, or nothing changes.
theorem sower_cases {c : Call} {g : Unit} {d : Disk} :
    (c = .init c.directory ∧ (sown d c.directory.place).Marked c.directory.place ∧
      (sower c g d).2.2 = sown d c.directory.place) ∨
    (sower c g d).2.2 = d ∧ (c = .init c.directory → (sower c g d).1 = .failed (.code 128) none) := by
  unfold sower
  by_cases begins : c = .init c.directory
  · rw [if_pos begins]
    split
    · rename_i marked
      exact .inl ⟨begins, marked, rfl⟩
    · exact .inr ⟨rfl, fun _ => rfl⟩
  · rw [if_neg begins]
    refine .inr ⟨?_, fun same => absurd same begins⟩
    split
    · rfl
    · split <;> rfl

theorem sower_planting : Planting sower := by
  refine ⟨fun c g d q away => ?_, fun directory g d text replied => ?_, fun c g d marked => ?_, fun c g d bare => ?_,
    fun c g d tree => ?_⟩
  · rcases sower_cases (c := c) (g := g) (d := d) with ⟨_, _, same⟩ | ⟨same, _⟩ <;> rw [same]
    exact sown_aside away
  · rcases sower_cases (c := .init directory) (g := g) (d := d) with ⟨_, marked, same⟩ | ⟨_, failed⟩
    · rw [same]
      exact marked
    · rw [failed rfl] at replied
      cases replied
  · rcases sower_cases (c := c) (g := g) (d := d) with ⟨_, marked, same⟩ | ⟨same, _⟩ <;> rw [same] <;> exact marked
  · rcases sower_cases (c := c) (g := g) (d := d) with ⟨_, marked, same⟩ | ⟨same, _⟩
    · rw [same] at bare
      exact absurd marked bare
    · exact same
  · rcases sower_cases (c := c) (g := g) (d := d) with ⟨_, _, same⟩ | ⟨same, _⟩ <;> rw [same]
    · exact sown_tree tree
    · exact tree

theorem field_outlet {q : Place} (outlet : field.Outlet q) : q = ["work", "registry.json"] := by
  rcases outlet with ⟨j, _, heard, _⟩ | ⟨p, path, rfl⟩
  · cases heard
  · obtain rfl : registryAtBench = p := Option.some.inj path
    rfl

theorem field_clear : Scan.Clear ⟨.root, ["work"]⟩ atBench.configuration.suffixes field := by
  refine ⟨fun outlet => ?_, fun home outlet => ?_, fun place name outlet => ?_, fun p path => ?_⟩
  · exact absurd (field_outlet outlet) (by decide)
  · have last := congrArg List.getLast? (field_outlet outlet)
    unfold metadataPlace at last
    rw [List.getLast?_concat] at last
    exact absurd last (by decide)
  · have last := congrArg List.getLast? (field_outlet outlet)
    rw [List.getLast?_concat] at last
    obtain rfl : name = "registry.json" := Option.some.inj last
    decide +kernel
  · obtain rfl : registryAtBench = p := Option.some.inj path
    decide

theorem field_tree : field.disk.Tree := by
  refine ⟨Disk.sound_of_items fun entry listed => ?_, ?_⟩
  · have stand : ∀ entry ∈ field.disk.items, field.disk.item? entry.1.dropLast = some .directory := by decide +kernel
    exact stand entry listed
  · unfold Disk.Distinct
    decide +kernel

theorem field_plain : ∀ q, (field.disk.item? q).isSome = true → ∀ n ∈ q, Path.Plain n ∧ n ≠ Path.parentName := by
  have listed : ∀ entry ∈ field.disk.items, ∀ n ∈ entry.1, Path.Plain n ∧ n ≠ Path.parentName := by decide +kernel
  intro q there
  by_cases root : q = []
  · rw [root]
    nofun
  · obtain ⟨item, found⟩ := Option.isSome_iff_exists.mp there
    exact listed _ ((Disk.mem_items field_tree.distinct root).mpr found)

-- The directory has become a repository, and what it holds is not found again.
theorem rescan_exact_part : ∃ results w' after,
    (atBench.processPaths [⟨.here, []⟩] none).run sower field = (.ok results, w') ∧
    Scan.run w'.disk ⟨.root, ["work"]⟩ atBench.configuration.suffixes = .ok after ∧
    partSource ∉ after ∧ toolSource ∈ after := by
  have root : Path.resolve ⟨.here, []⟩ atBench.here = ⟨.root, ["work"]⟩ := by decide
  have listing : (atBench.filesAt ⟨.here, []⟩).run sower field = (.ok [toolSource, partSource], field) := by
    have there : (Action.onDisk (DiskAction.isDirectory (atBench.here ++ (⟨.here, []⟩ : Path)))).run sower field
        = (.ok true, field) := by rfl
    unfold filesAt
    rw [bind_ok there, if_pos rfl, bind_ok run_get, root, field_found]
    rfl
  obtain ⟨ended, marked⟩ : ((atBench.processFiles none [toolSource, partSource] []).run sower field).1
        = .ok [(toolSource, .committed ⟨"1", ""⟩), (partSource, .nothing)] ∧
      ((atBench.processFiles none [toolSource, partSource] []).run sower field).2.disk.item? (metadataPlace toolHome)
        = some .directory := by decide +kernel
  have ran : (atBench.processPaths [⟨.here, []⟩] none).run sower field
      = (.ok [(toolSource, .committed ⟨"1", ""⟩), (partSource, .nothing)],
        ((atBench.processFiles none [toolSource, partSource] []).run sower field).2) := by
    unfold processPaths processFrom
    rw [bind_ok listing, bind_ok (ok_of_result ended)]
    rfl
  have own : ∀ f ∈ [toolSource, partSource], f.stem ∉ [Path.hereName, Path.parentName] := by decide
  obtain ⟨after, again, _, lost⟩ := rescan_exact sower_planting rfl field_tree field_plain (by rw [root]; exact field_clear)
    (by rw [root]; exact field_found) own ran
  rw [root] at again
  refine ⟨_, _, after, ran, again, (lost partSource (by simp)).mpr ?_, ?_⟩
  · refine ⟨toolHome, ?_, by decide, ?_, toolSource, by simp, .inl (by decide)⟩
    · rw [root]
      decide
    · unfold Disk.Marked
      rw [marked]
      rfl
  · by_contra gone
    obtain ⟨home, above, inside, _⟩ := (lost toolSource (by simp)).mp gone
    rw [root] at above
    -- nothing lies between the root and a file in it
    have apart : ∀ home ∈ toolSource.parts.inits, Below ["work"] home → ¬Below home toolSource.parts := by decide
    exact apart home ((List.mem_inits _ _).mpr inside.1) above inside

end Expansion
end InlineProject
