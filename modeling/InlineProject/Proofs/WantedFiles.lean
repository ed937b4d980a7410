import InlineProject.Proofs.InPlaceRuns
/-!
The files that a search gives, told by their names. A file is found where its own name and the names of all directories
between it and the root are not left out, and what is found comes in an order that the names alone decide.
-/

namespace InlineProject

namespace Disk

variable {d d' : Disk}

-- The order in which entries are listed makes no difference to what is at a place.
theorem item?_perm (distinct : d.Distinct) (same : d'.items.Perm d.items) : d'.item? = d.item? := by
  have distinct' : d'.Distinct := (same.map Prod.fst).nodup_iff.mpr distinct
  funext place
  by_cases root : place = []
  · rw [root]
    rfl
  · refine Option.ext fun item => ?_
    rw [← mem_items distinct' root, ← mem_items distinct root, same.mem_iff]

theorem Tree.perm (tree : d.Tree) (same : d'.items.Perm d.items) : d'.Tree := by
  refine ⟨?_, (same.map Prod.fst).nodup_iff.mpr tree.distinct⟩
  unfold Sound
  rw [item?_perm tree.distinct same]
  exact tree.sound

end Disk

namespace Scan

variable {d d' : Disk} {s : Scan} {here p root : Path} {start : Place} {above way names : List String} {name : String}
  {suffixes : List String} {ignored : List Ignore.Pattern}

/-! ### Files that are wanted -/

-- A search goes through a directory between its root and a file.
structure Entered (s : Scan) (d : Disk) (front : List String) (directory : String) : Prop where
  included : directory ∉ excludedNames
  heeded : ∀ p ∈ s.ignored, p.accepts (relativeChars (front ++ [directory])) true = false
  bare : d.item? (s.root.parts ++ front ++ [directory, repositoryMark]) = none

-- A file, given by the directories between it and the root and by its own name.
structure Wanted (s : Scan) (d : Disk) (way : List String) (name : String) : Prop where
  file : (d.file? (s.root.parts ++ way ++ [name])).isSome = true
  suffix : ∃ suffix ∈ s.suffixes, Lowercase.ofString suffix = Lowercase.ofString (Path.splitName name).2
  heeded : ∀ p ∈ s.ignored, p.accepts (relativeChars (way ++ [name])) false = false
  entered : ∀ front directory, front ++ [directory] <+: way → s.Entered d front directory

theorem ignores_exact {isDirectory : Bool} : s.ignores names isDirectory = false ↔
    ∀ p ∈ s.ignored, p.accepts (relativeChars names) isDirectory = false := by
  simp [Scan.ignores, Ignore.acceptsAny]

theorem wants_exact : s.wants above name = true ↔
    (∃ suffix ∈ s.suffixes, Lowercase.ofString suffix = Lowercase.ofString (Path.splitName name).2) ∧
      ∀ p ∈ s.ignored, p.accepts (relativeChars (above ++ [name])) false = false := by
  rw [← ignores_exact]
  simp [Scan.wants, List.contains_eq_mem]

theorem enters_exact : s.enters d s.root.parts above name = true ↔ s.Entered d above name := by
  unfold Scan.enters
  rw [Bool.and_eq_true, Bool.and_eq_true, Bool.not_eq_true', Bool.not_eq_true', ignores_exact, Option.isNone_iff_eq_none,
    List.contains_eq_mem, decide_eq_false_iff_not]
  exact ⟨fun ⟨⟨included, heeded⟩, bare⟩ => ⟨included, heeded, bare⟩, fun ⟨included, heeded, bare⟩ => ⟨⟨included, heeded⟩, bare⟩⟩

-- The names of the directories on the way are taken off one after the other.
theorem seen_way : s.Seen d s.root.parts above (way ++ [name]) ↔
    ((∃ content, d.item? (s.root.parts ++ above ++ way ++ [name]) = some (.file content)) ∧ s.wants (above ++ way) name = true) ∧
      ∀ front directory, front ++ [directory] <+: way →
        d.item? (s.root.parts ++ above ++ front ++ [directory]) = some .directory ∧ s.Entered d (above ++ front) directory := by
  induction way generalizing above with
  | nil =>
    have none {front : List String} {directory : String} : ¬front ++ [directory] <+: [] := by
      rintro ⟨rest, impossible⟩
      simp at impossible
    simp only [List.nil_append, List.append_nil, Seen]
    exact ⟨fun seen => ⟨seen, fun _ _ inside => absurd inside none⟩, fun seen => seen.1⟩
  | cons first way ih =>
    obtain ⟨next, rest, split⟩ : ∃ next rest, way ++ [name] = next :: rest := by
      cases way with
      | nil => exact ⟨name, [], rfl⟩
      | cons next rest => exact ⟨next, rest ++ [name], rfl⟩
    rw [List.cons_append, split, Seen, ← split, ih, enters_exact]
    have onwards (more : List String) : above ++ first :: more = above ++ [first] ++ more := by
      rw [List.append_assoc]
      rfl
    have deeper (more : List String) :
        s.root.parts ++ (above ++ [first]) ++ more = s.root.parts ++ above ++ first :: more := by
      simp only [List.append_assoc, List.cons_append, List.nil_append]
    rw [deeper, ← onwards]
    constructor
    · rintro ⟨there, entered, found, others⟩
      refine ⟨found, fun front directory inside => ?_⟩
      cases front with
      | nil =>
        obtain ⟨rfl, _⟩ := List.cons_prefix_cons.mp inside
        rw [List.append_nil, List.append_nil]
        exact ⟨there, entered⟩
      | cons other front =>
        obtain ⟨rfl, within⟩ := List.cons_prefix_cons.mp inside
        have held := others front directory within
        rwa [deeper, ← onwards] at held
    · rintro ⟨found, others⟩
      have start := others [] first (List.cons_prefix_cons.mpr ⟨rfl, List.nil_prefix⟩)
      rw [List.append_nil, List.append_nil] at start
      refine ⟨start.1, start.2, found, fun front directory inside => ?_⟩
      have held := others (first :: front) directory (List.cons_prefix_cons.mpr ⟨rfl, inside⟩)
      rwa [deeper, ← onwards]

-- Where entries stand in directories, the names and the marks of repositories decide.
theorem seen_wanted (sound : d.Sound) : s.Seen d s.root.parts [] (way ++ [name]) ↔ s.Wanted d way name := by
  have file : (∃ content, d.item? (s.root.parts ++ way ++ [name]) = some (.file content)) ↔
      (d.file? (s.root.parts ++ way ++ [name])).isSome = true := by
    unfold Disk.file?
    constructor
    · rintro ⟨content, there⟩
      rw [there]
      rfl
    · intro there
      split at there
      · rename_i content found
        exact ⟨content, found⟩
      · cases there
  rw [seen_way, wants_exact]
  simp only [List.append_nil, List.nil_append]
  rw [file]
  constructor
  · rintro ⟨⟨there, suffix, heeded⟩, others⟩
    exact ⟨there, suffix, heeded, fun front directory inside => (others front directory inside).2⟩
  · rintro ⟨there, suffix, heeded, entered⟩
    refine ⟨⟨there, suffix, heeded⟩, fun front directory inside => ⟨?_, entered front directory inside⟩⟩
    obtain ⟨rest, rfl⟩ := inside
    have present := Disk.isSome_of_file there
    have split : s.root.parts ++ (front ++ [directory] ++ rest) ++ [name]
        = s.root.parts ++ front ++ [directory] ++ (rest ++ [name]) := by simp only [List.append_assoc]
    rw [split] at present
    exact Disk.directory_above sound present (List.append_ne_nil_of_right_ne_nil _ (List.cons_ne_nil _ _))

/-! ### The patterns of the root -/

-- The patterns of a root: those of its file of patterns, if it has one.
def Heeds (d : Disk) (root : Path) (ignored : List Ignore.Pattern) : Prop :=
  match d.file? (root.parts ++ [ignoreFileName]) with
  | some content => ∃ text, Utf8.decode content = .ok text ∧ ignored = Ignore.patterns text.toList
  | none => ignored = []

theorem patternsAt_heeds (down : Path.parentName ∉ root.parts) (there : d.look root = .ok (some .directory))
    (legible : ∀ content, d.file? (root.parts ++ [ignoreFileName]) = some content →
      ∃ text, Utf8.decode content = .ok text) :
    ∃ ignored, patternsAt d (root.join ignoreFileName) = .ok ignored ∧ Heeds d root ignored := by
  obtain ⟨located, directory⟩ := Disk.look_some there
  have entering : d.locate (root.join ignoreFileName) = .ok (root.parts ++ [ignoreFileName]) := by
    rw [← Path.place_down down]
    exact Disk.locate_child located directory (by decide) (by decide) (by decide)
  have look : d.look (root.join ignoreFileName) = .ok (d.item? (root.parts ++ [ignoreFileName])) :=
    Disk.look_located entering
  unfold patternsAt Heeds
  rw [look]
  cases found : d.file? (root.parts ++ [ignoreFileName]) with
  | none =>
    refine ⟨[], ?_, rfl⟩
    unfold Disk.file? at found
    split
    · simp_all
    · simp_all
    · rfl
  | some content =>
    obtain ⟨text, decoded⟩ := legible content found
    rw [Disk.file?_some.mp found]
    dsimp only
    rw [decoded]
    exact ⟨_, rfl, text, rfl, rfl⟩

/-! ### The sequence -/

theorem below_earlier (distinct : d.Distinct) : (s.below d start).Pairwise Earlier := by
  refine (namesFrom_earlier distinct).imp ?_
  rintro _ _ ⟨_, _, rfl, rfl, earlier⟩
  exact earlier

theorem below_nodup (distinct : d.Distinct) : (s.below d start).Nodup := by
  refine (below_earlier distinct).imp ?_
  rintro names _ earlier rfl
  exact earlier.asymm earlier

-- Disks with the same entries are searched with the same result.
theorem run_same (tree : d.Tree) (tree' : d'.Tree) (same : d'.item? = d.item?) :
    Scan.run d' root suffixes = Scan.run d root suffixes := by
  have look (p : Path) : d'.look p = d.look p := Disk.look_congr (fun r _ => congrFun same r) (congrFun same _)
  have patterns : patternsAt d' (root.join ignoreFileName) = patternsAt d (root.join ignoreFileName) := by
    unfold patternsAt
    rw [look]
  have found (s : Scan) (start : Place) : s.below d' start = s.below d start := by
    have seen (above more : List String) : s.Seen d' start above more ↔ s.Seen d start above more := by
      induction more generalizing above with
      | nil => exact Iff.rfl
      | cons name rest ih =>
        cases rest with
        | nil => rw [Seen, Seen, same]
        | cons next rest => rw [Seen, Seen, same, ih, Scan.enters, Scan.enters, same]
    have filtered := @below_filter d d' s start (fun _ => true) tree.distinct tree'.distinct
      fun more => by rw [seen, and_iff_left rfl]
    rwa [List.filter_true] at filtered
  have files (s : Scan) (start : Place) : s.files d' start = s.files d start := by
    change (s.below d' start).map _ = (s.below d start).map _
    rw [found]
  unfold Scan.run
  rw [look, patterns]
  simp only [files]

-- What a search finds, each file once and in an order that nothing but the names decide.
theorem run_wanted (tree : d.Tree) (there : d.look (p.resolve here) = .ok (some .directory))
    (legible : ∀ content, d.file? ((p.resolve here).parts ++ [ignoreFileName]) = some content →
      ∃ text, Utf8.decode content = .ok text) :
    ∃ (ignored : List Ignore.Pattern) (found : List (List String)), Heeds d (p.resolve here) ignored ∧
      Scan.run d (p.resolve here) suffixes
        = .ok (found.map fun names => (⟨.root, (p.resolve here).parts ++ names⟩ : Path)) ∧
      (∀ names, names ∈ found ↔
        ∃ way name, names = way ++ [name] ∧ (Scan.mk (p.resolve here) suffixes ignored).Wanted d way name) ∧
      found.Nodup ∧ found.Pairwise Earlier ∧
      ∀ d' : Disk, d'.items.Perm d.items →
        Scan.run d' (p.resolve here) suffixes = Scan.run d (p.resolve here) suffixes := by
  obtain ⟨ignored, read, heeds⟩ := patternsAt_heeds Path.resolve_notMem there legible
  refine ⟨ignored, (Scan.mk (p.resolve here) suffixes ignored).below d (p.resolve here).parts, heeds, ?_, ?_,
    below_nodup tree.distinct, below_earlier tree.distinct, ?_⟩
  · unfold Scan.run
    rw [there, read]
    rfl
  · intro names
    rw [mem_below tree.distinct]
    constructor
    · intro seen
      rcases names.eq_nil_or_concat with rfl | ⟨way, name, rfl⟩
      · exact seen.elim
      · rw [List.concat_eq_append] at seen ⊢
        exact ⟨way, name, rfl, (seen_wanted tree.sound).mp seen⟩
    · rintro ⟨way, name, rfl, wanted⟩
      exact (seen_wanted tree.sound).mpr wanted
  · intro d' same
    exact run_same tree (tree.perm same) (Disk.item?_perm tree.distinct same)

-- A pattern for a directory, a name in capitals, and a repository below the root.
def grove : Disk := ⟨[
  (["r"], .directory), (["r", "b.cs"], .file .empty), (["r", "lib"], .directory), (["r", "lib", "c.CS"], .file .empty),
  (["r", "gen"], .directory), (["r", "gen", "d.cs"], .file .empty), (["r", "lib", "a.cs"], .file .empty),
  (["r", ".gitignore"], .file "gen/\n".toUTF8), (["r", "copy"], .directory), (["r", "copy", ".git"], .directory),
  (["r", "copy", "e.cs"], .file .empty)]⟩

theorem grove_tree : grove.Tree := by
  refine ⟨Disk.sound_of_items ?_, ?_⟩
  · unfold grove
    decide +kernel
  · unfold Disk.Distinct grove
    decide

theorem run_wanted_grove : ∃ found, Scan.run grove ⟨.root, ["r"]⟩ [".Cs"] = .ok found ∧
    ⟨.root, ["r", "lib", "c.CS"]⟩ ∈ found ∧ ⟨.root, ["r", "gen", "d.cs"]⟩ ∉ found ∧ ⟨.root, ["r", "copy", "e.cs"]⟩ ∉ found ∧
    ∀ d' : Disk, d'.items.Perm grove.items → Scan.run d' ⟨.root, ["r"]⟩ [".Cs"] = .ok found := by
  have root : Path.resolve ⟨.root, ["r"]⟩ ⟨.root, []⟩ = ⟨.root, ["r"]⟩ := by decide
  have there : grove.look (Path.resolve ⟨.root, ["r"]⟩ ⟨.root, []⟩) = .ok (some .directory) := by
    rw [root]
    rfl
  have decoded : Utf8.decode "gen/\n".toUTF8 = .ok "gen/\n" := by decide +kernel
  have legible : ∀ content, grove.file? ((Path.resolve ⟨.root, ["r"]⟩ ⟨.root, []⟩).parts ++ [ignoreFileName])
      = some content → ∃ text, Utf8.decode content = .ok text := by
    rw [root]
    rintro content ⟨⟩
    exact ⟨_, decoded⟩
  obtain ⟨ignored, found, heeds, ran, wanted, _, _, settled⟩ := @run_wanted _ _ _ [".Cs"] grove_tree there legible
  rw [root] at heeds ran wanted settled
  obtain ⟨text, same, rfl⟩ : ∃ text, Utf8.decode "gen/\n".toUTF8 = .ok text ∧ ignored = Ignore.patterns text.toList := heeds
  cases decoded.symm.trans same
  have pattern : Ignore.patterns "gen/\n".toList = [⟨"gen", true, false⟩] := by decide +kernel
  rw [pattern] at wanted
  have listed (way : List String) (name : String) : (⟨.root, "r" :: (way ++ [name])⟩ : Path) ∈ found.map
      (fun names => (⟨.root, ["r"] ++ names⟩ : Path)) ↔
        (Scan.mk ⟨.root, ["r"]⟩ [".Cs"] [⟨"gen", true, false⟩]).Wanted grove way name := by
    rw [List.mem_map]
    constructor
    · rintro ⟨names, member, same⟩
      cases same
      obtain ⟨way', name', same, found⟩ := (wanted _).mp member
      obtain ⟨rfl, last⟩ := List.append_inj' same rfl
      cases last
      exact found
    · intro found
      exact ⟨way ++ [name], (wanted _).mpr ⟨way, name, rfl, found⟩, rfl⟩
  refine ⟨_, ran, (listed ["lib"] "c.CS").mpr ?_, mt (listed ["gen"] "d.cs").mp ?_, mt (listed ["copy"] "e.cs").mp ?_, ?_⟩
  · refine ⟨rfl, ⟨".Cs", by simp, by decide +kernel⟩, by decide +kernel, fun front directory inside => ?_⟩
    rcases front with _ | ⟨first, front⟩
    · obtain ⟨rfl, _⟩ := List.cons_prefix_cons.mp inside
      exact ⟨by decide, by decide +kernel, rfl⟩
    · have long := inside.length_le
      simp at long
  · intro found
    have heeded := (found.entered [] "gen" List.prefix_rfl).heeded _ List.mem_cons_self
    exact absurd heeded (by decide +kernel)
  · intro found
    have bare := (found.entered [] "copy" List.prefix_rfl).bare
    exact absurd bare (by decide)
  · intro d' same
    rw [settled d' same, ran]

end Scan
end InlineProject
