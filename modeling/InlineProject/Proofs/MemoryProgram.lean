import Mathlib
import InlineProject.Proofs.Listings
import InlineProject.Proofs.StockedFiles
/-!
A version control program that keeps its repositories in memory. It does what is relied on.
-/

namespace InlineProject.Git

-- A commit as it is printed, with its files.
structure Entry where
  sha : String
  message : String
  stock : Stock

def Entry.commit (e : Entry) : Commit := ⟨Blank.trimString e.sha, Blank.trimString e.message⟩

-- A repository: the last commit comes first.
structure Shelf where
  entries : List Entry
  index : Stock

/-! ### Orders -/

-- What a call asks for.
inductive Order where
  | init
  | status
  | reset
  | clean
  | add (file : String)
  | diff
  | commit (message : String) (mayBeEmpty : Bool)
  | revParse
  | log (sha : String)

def Order.ofArguments : List String → Option Order
  | ["git", "-c", "init.defaultBranch=main", "init", "--quiet"] => some .init
  | ["git", "status", "--porcelain"] => some .status
  | ["git", "reset", "--hard", "--quiet", "HEAD"] => some .reset
  | ["git", "clean", "-fd", "--quiet"] => some .clean
  | ["git", "add", "--", file] => some (.add file)
  | ["git", "diff", "--cached", "--name-only"] => some .diff
  | ["git", "-c", "commit.gpgsign=false", "commit", "--quiet", "--no-verify", "-m", message] =>
      some (.commit message false)
  | ["git", "-c", "commit.gpgsign=false", "commit", "--quiet", "--no-verify", "-m", message,
      "--allow-empty"] => some (.commit message true)
  | ["git", "rev-parse", "HEAD"] => some .revParse
  | ["git", "log", "-1", "--format=%B", sha] => some (.log sha)
  | _ => none

namespace Shelf

variable {s s' : Shelf} {home way : Place} {d d' : Disk} {text : String} {o : Order}

-- The files of the last commit.
def last (s : Shelf) : Stock := (s.entries.head?.map (·.stock)).getD .empty

def archive (s : Shelf) : Archive :=
  ⟨s.entries.map fun entry => (entry.commit, entry.stock.tree), s.index.tree⟩

def print (way : Place) : String := "/".intercalate way

-- The files in which the index differs from the last commit.
def differing (s : Shelf) : List Place :=
  ((s.last.files ++ s.index.files).map (·.1)).eraseDups.filter fun way =>
    s.last.tree way ≠ s.index.tree way

def present (d : Disk) (home : Place) : List Place :=
  d.items.filterMap fun entry =>
    if home.isPrefixOf entry.1 then some (entry.1.drop home.length) else none

-- The files in which the index differs from the last commit or from what is in the directory.
def changed (s : Shelf) (home : Place) (d : Disk) : List Place :=
  ((s.last.files ++ s.index.files).map (·.1) ++ present d home).eraseDups.filter fun way =>
    s.last.tree way ≠ s.index.tree way ∨ s.index.tree way ≠ workingTree d home way

-- How a file has come from one state into another.
def column (old new : Option ByteArray) : String :=
  if old = new then " "
  else if old.isNone then "A"
  else if new.isNone then "D"
  else "M"

def mark (s : Shelf) (home : Place) (d : Disk) (way : Place) : String :=
  if (s.last.tree way).isNone && (s.index.tree way).isNone then "??"
  else column (s.last.tree way) (s.index.tree way)
    ++ column (s.index.tree way) (workingTree d home way)

def status (s : Shelf) (home : Place) (d : Disk) : String :=
  String.join ((s.changed home d).map fun way => s.mark home d way ++ " " ++ print way ++ "\n")

-- The index with a file that is in the directory.
def added? (s : Shelf) (home : Place) (d : Disk) (p : Path) : Option Stock :=
  if free : p.parts ≠ [] ∧ p.parts.head? ≠ some metadataName then
    match p.anchor, d.item? (home ++ p.parts) with
    | .here, some (.file content) => some (s.index.add p.parts content free)
    | _, _ => none
  else none

def committed (s : Shelf) (message : String) : Shelf :=
  ⟨⟨toString (s.entries.length + 1) ++ "\n", message ++ "\n", s.index⟩ :: s.entries, s.index⟩

-- What an order makes of a repository and its directory.
def perform (s : Shelf) (home : Place) (d : Disk) : Order → Option (String × Shelf × Disk)
  | .init => some ("", s, d)
  | .status => some (s.status home d, s, d)
  | .reset =>
      if s.entries.isEmpty then none
      else some ("", ⟨s.entries, s.last⟩, s.last.reset s.index home d)
  | .clean => some ("", s, s.index.clean home d)
  | .add file =>
      (s.added? home d (Path.ofString file)).map fun index => ("", ⟨s.entries, index⟩, d)
  | .diff => some (String.join (s.differing.map fun way => print way ++ "\n"), s, d)
  | .commit message mayBeEmpty =>
      if mayBeEmpty || !s.differing.isEmpty then some ("", s.committed message, d) else none
  | .revParse => s.entries.head?.map fun entry => (entry.sha, s, d)
  | .log sha =>
      (s.entries.find? fun entry => entry.commit.sha = sha).map fun entry => (entry.message, s, d)

/-! ### What is listed -/

theorem archive_tree : s.archive.tree = s.last.tree := by
  unfold Archive.tree archive last
  cases s.entries <;> rfl

theorem mem_ways {t : Stock} (held : t.tree way ≠ none) : way ∈ t.files.map (·.1) := by
  obtain ⟨content, found⟩ := Option.ne_none_iff_exists'.mp held
  exact List.mem_map.mpr ⟨_, Stock.mem_of_tree found, rfl⟩

theorem mem_present (there : workingTree d home way ≠ none) : way ∈ present d home := by
  obtain ⟨content, found⟩ := Option.ne_none_iff_exists'.mp there
  obtain ⟨_, entry⟩ := workingTree_exact.mp found
  unfold Disk.item? at entry
  split at entry
  · cases entry
  · obtain ⟨front, back, split, _⟩ := List.lookup_eq_some_iff.mp entry
    refine List.mem_filterMap.mpr ⟨(home ++ way, .file content), ?_, ?_⟩
    · rw [split]
      exact List.mem_append_right _ List.mem_cons_self
    · have leads : home.isPrefixOf (home ++ way) = true :=
        List.isPrefixOf_iff_prefix.mpr (List.prefix_append _ _)
      rw [if_pos leads, List.drop_left]

-- A way at which two trees differ is one of theirs.
theorem mem_either {t t' : Stock} (apart : t.tree way ≠ t'.tree way) :
    way ∈ (t.files ++ t'.files).map (·.1) := by
  rw [List.map_append]
  by_cases first : t.tree way = none
  · refine List.mem_append_right _ (mem_ways fun second => apart ?_)
    rw [first, second]
  · exact List.mem_append_left _ (mem_ways first)

theorem mem_differing : way ∈ s.differing ↔ s.last.tree way ≠ s.index.tree way := by
  unfold differing
  rw [List.mem_filter, List.mem_eraseDups, decide_eq_true_eq]
  exact and_iff_right_of_imp mem_either

theorem mem_changed : way ∈ s.changed home d ↔
    s.last.tree way ≠ s.index.tree way ∨ s.index.tree way ≠ workingTree d home way := by
  unfold changed
  rw [List.mem_filter, List.mem_eraseDups, decide_eq_true_eq]
  refine and_iff_right_of_imp fun apart => ?_
  by_cases same : s.last.tree way = s.index.tree way
  · have other := apart.resolve_left fun differ => differ same
    by_cases none : s.index.tree way = none
    · refine List.mem_append_right _ (mem_present fun gone => other ?_)
      rw [none, gone]
    · rw [List.map_append]
      exact List.mem_append_left _ (List.mem_append_right _ (mem_ways none))
  · exact List.mem_append_left _ (mem_either same)

theorem column_blank {old new : Option ByteArray}
    (blank : Blank.isBlankText (column old new).toList = true) : old = new := by
  unfold column at blank
  split at blank
  · assumption
  · split at blank
    · cases blank
    · split at blank <;> cases blank

-- Something is marked of whatever has changed.
theorem mark_blank (blank : Blank.isBlankText (s.mark home d way).toList = true) :
    s.last.tree way = s.index.tree way ∧ s.index.tree way = workingTree d home way := by
  unfold mark at blank
  split at blank
  · cases blank
  · rw [String.toList_append, isBlankText_append] at blank
    exact ⟨column_blank blank.1, column_blank blank.2⟩

theorem status_blank : Blank.isBlankText (s.status home d).toList = true ↔
    s.last.tree = s.index.tree ∧ s.index.tree = workingTree d home := by
  have changeless : s.changed home d = [] ↔
      s.last.tree = s.index.tree ∧ s.index.tree = workingTree d home := by
    rw [List.eq_nil_iff_forall_not_mem]
    simp only [mem_changed, not_or, Decidable.not_not, forall_and]
    exact and_congr funext_iff.symm funext_iff.symm
  rw [← changeless]
  constructor
  · intro blank
    cases ways : s.changed home d with
    | nil => rfl
    | cons way rest =>
      have member : way ∈ s.changed home d := ways ▸ List.mem_cons_self
      unfold status at blank
      rw [ways, List.map_cons, String.join_cons, String.toList_append, isBlankText_append,
        String.append_assoc, String.append_assoc, String.toList_append, isBlankText_append] at blank
      obtain ⟨first, second⟩ := mark_blank blank.1.1
      exact absurd (mem_changed.mp member) (not_or.mpr ⟨not_not_intro first, not_not_intro second⟩)
  · intro none
    unfold status
    rw [none]
    rfl

theorem printed {way : Place} (long : 2 ≤ way.length) :
    Blank.isBlankText (print way).toList = false := by
  cases way with
  | nil => cases long
  | cons name rest =>
    cases rest with
    | nil => cases Nat.le_of_succ_le_succ long
    | cons next more =>
      have slash : '/' ∈ (print (name :: next :: more)).toList := by
        unfold print
        rw [String.intercalate_cons_cons, String.toList_append, String.toList_append]
        exact List.mem_append_left _ (List.mem_append_right _ List.mem_cons_self)
      refine Bool.eq_false_iff.mpr fun blank => ?_
      exact absurd (List.all_eq_true.mp blank _ slash) (by decide)

/-! ### What is performed -/

-- What an order makes of a repository and its directory, if it can be performed. Most orders only look.
inductive Performed (s : Shelf) (home : Place) (d : Disk) : Order → Shelf → Disk → Prop where
  | looked {o : Order} : Performed s home d o s d
  | reset : Performed s home d .reset ⟨s.entries, s.last⟩ (s.last.reset s.index home d)
  | cleaned : Performed s home d .clean s (s.index.clean home d)
  | added {file : String} {index : Stock} (taken : s.added? home d (Path.ofString file) = some index) :
      Performed s home d (.add file) ⟨s.entries, index⟩ d
  | committed {message : String} {mayBeEmpty : Bool} :
      Performed s home d (.commit message mayBeEmpty) (s.committed message) d

theorem performed_of_perform (performed : s.perform home d o = some (text, s', d')) :
    Performed s home d o s' d' := by
  cases o with
  | init => cases performed; exact .looked
  | status => cases performed; exact .looked
  | reset =>
    simp only [perform] at performed
    split at performed <;> cases performed
    exact .reset
  | clean => cases performed; exact .cleaned
  | add file =>
    obtain ⟨index, taken, same⟩ := Option.map_eq_some_iff.mp performed
    cases same
    exact .added taken
  | diff => cases performed; exact .looked
  | commit message mayBeEmpty =>
    simp only [perform] at performed
    split at performed <;> cases performed
    exact .committed
  | revParse =>
    obtain ⟨entry, _, same⟩ := Option.map_eq_some_iff.mp performed
    cases same
    exact .looked
  | log sha =>
    obtain ⟨entry, _, same⟩ := Option.map_eq_some_iff.mp performed
    cases same
    exact .looked

-- The disk stays as it is, or the directory is brought to what a stock says.
theorem perform_disk (performed : s.perform home d o = some (text, s', d')) :
    d' = d ∨ (o = .reset ∧ d' = s.last.reset s.index home d) ∨
      (o = .clean ∧ d' = s.index.clean home d) := by
  cases performed_of_perform performed with
  | looked | added | committed => exact .inl rfl
  | reset => exact .inr (.inl ⟨rfl, rfl⟩)
  | cleaned => exact .inr (.inr ⟨rfl, rfl⟩)

theorem perform_sound (performed : s.perform home d o = some (text, s', d')) (sound : d.Sound)
    (there : d.item? home = some .directory) : d'.Sound := by
  rcases perform_disk performed with rfl | ⟨_, rfl⟩ | ⟨_, rfl⟩
  · exact sound
  · exact Stock.reset_sound sound there
  · exact Stock.clean_sound sound

theorem perform_aside (performed : s.perform home d o = some (text, s', d')) {q : Place}
    (aside : ¬Below home q ∨ metadataPlace home <+: q) : d'.item? q = d.item? q := by
  rcases perform_disk performed with rfl | ⟨_, rfl⟩ | ⟨_, rfl⟩
  · rfl
  · exact Stock.reset_aside aside
  · exact Stock.clean_aside aside

end Shelf

/-! ### The program -/

abbrev Memory := Place → Option Shelf

namespace Memory

def shelf? (g : Memory) (d : Disk) (home : Place) : Option Shelf :=
  if d.item? (metadataPlace home) = some .directory then g home else none

def put (g : Memory) (home : Place) (s : Shelf) : Memory := fun other =>
  if other = home then some s else g other

-- A new repository, where none is.
def begin (g : Memory) (home : Place) (d : Disk) : Order → Option (String × Memory × Disk)
  | .init =>
      if d.item? home = some .directory ∧ d.item? (metadataPlace home) = none then
        some ("", g.put home ⟨[], .empty⟩, d.put (metadataPlace home) .directory)
      else none
  | _ => none

def answer (g : Memory) (home : Place) (d : Disk) (o : Order) : Option (String × Memory × Disk) :=
  match g.shelf? d home with
  | some s => (s.perform home d o).map fun done => (done.1, g.put home done.2.1, done.2.2)
  | none => g.begin home d o

def runner : Runner Memory := fun c g d =>
  match d.locate c.directory, Order.ofArguments c.arguments with
  | .ok home, some o =>
      match g.answer home d o with
      | some done => (.output done.1, done.2.1, done.2.2)
      | none => (.failed (.code 128) none, g, d)
  | _, _ => (.failed (.code 128) none, g, d)

def keeping : Keeping Memory := ⟨fun g d home => (g.shelf? d home).map Shelf.archive, Shelf.print⟩

variable {g g' : Memory} {home : Place} {d d' : Disk} {text : String} {o : Order} {c : Call}
  {directory : Path} {a : Archive}

theorem shelf_put {s : Shelf} (kept : d.item? (metadataPlace home) = some .directory) :
    (g.put home s).shelf? d home = some s := by
  unfold shelf?
  rw [if_pos kept]
  exact if_pos rfl

theorem shelf_kept {s : Shelf} (found : g.shelf? d home = some s) :
    d.item? (metadataPlace home) = some .directory := by
  unfold shelf? at found
  split at found
  · assumption
  · cases found

theorem home_of_shelf {s : Shelf} (sound : d.Sound) (found : g.shelf? d home = some s) :
    d.item? home = some .directory := by
  have kept : (d.item? (metadataPlace home)).isSome = true := by
    rw [shelf_kept found]
    rfl
  exact Disk.directory_above sound kept (List.cons_ne_nil metadataName [])

theorem reply_exact (ordered : Order.ofArguments c.arguments = some o)
    (located : d.locate c.directory = .ok home) (reply : runner c g d = (.output text, g', d')) :
    g.answer home d o = some (text, g', d') := by
  unfold runner at reply
  rw [located, ordered] at reply
  dsimp only at reply
  cases answered : g.answer home d o with
  | none =>
    rw [answered] at reply
    cases reply
  | some done =>
    rw [answered] at reply
    cases reply
    rfl

-- A call in a repository that is there.
theorem reply_performed (ordered : Order.ofArguments c.arguments = some o) (other : o ≠ .init)
    (sound : d.Sound) (located : d.locate c.directory = .ok home)
    (reply : runner c g d = (.output text, g', d')) :
    ∃ s s', g.shelf? d home = some s ∧ s.perform home d o = some (text, s', d') ∧
      g'.shelf? d' home = some s' ∧ d.item? home = some .directory := by
  have answered := reply_exact ordered located reply
  unfold answer at answered
  cases found : g.shelf? d home with
  | none =>
    rw [found] at answered
    cases o <;> first | cases answered | exact absurd rfl other
  | some s =>
    rw [found] at answered
    obtain ⟨⟨_, s', _⟩, performed, same⟩ := Option.map_eq_some_iff.mp answered
    cases same
    refine ⟨s, s', rfl, performed, shelf_put ?_, home_of_shelf sound found⟩
    rw [Shelf.perform_aside performed (.inr List.prefix_rfl)]
    exact shelf_kept found

theorem answers_performed (ordered : Order.ofArguments c.arguments = some o)
    (stands : Stands keeping c.directory home g d a)
    (performs : ∀ s : Shelf, s.archive = a → (s.perform home d o).isSome = true) :
    Answers runner c g d := by
  obtain ⟨s, found, same⟩ := Option.map_eq_some_iff.mp stands.archived
  obtain ⟨done, performed⟩ := Option.isSome_iff_exists.mp (performs s same)
  refine ⟨done.1, g.put home done.2.1, done.2.2, ?_⟩
  unfold runner answer
  rw [stands.located, ordered]
  dsimp only
  rw [found]
  dsimp only
  rw [performed]
  rfl

theorem archive_of_shelf {s : Shelf} (found : g.shelf? d home = some s) :
    keeping.archive g d home = some s.archive := by
  change (g.shelf? d home).map Shelf.archive = _
  rw [found]
  rfl

theorem stands_archive {s : Shelf} (stands : Stands keeping directory home g d a)
    (found : g.shelf? d home = some s) : a = s.archive :=
  Option.some.inj (stands.archived.symm.trans (archive_of_shelf found))

theorem entry_of_born {s : Shelf} (same : s.archive = a) (born : a.commits ≠ []) :
    ∃ entry rest, s.entries = entry :: rest := by
  subst same
  cases entries : s.entries with
  | nil =>
    refine absurd ?_ born
    unfold Shelf.archive
    rw [entries]
    rfl
  | cons entry rest => exact ⟨entry, rest, rfl⟩

/-! ### What is relied on -/

theorem status_relied (sound : d.Sound) (located : d.locate directory = .ok home)
    (reply : runner (.status directory) g d = (.output text, g', d')) :
    ∃ a, keeping.archive g d home = some a ∧ keeping.archive g' d' home = some a ∧
      Quiet home d d' ∧
      (Blank.isBlankText text.toList = true ↔ a.tree = a.index ∧ a.index = workingTree d home) := by
  obtain ⟨s, s', found, performed, found', _⟩ := reply_performed (o := .status) rfl nofun sound located reply
  cases performed
  refine ⟨s.archive, archive_of_shelf found, archive_of_shelf found', fun _ _ => rfl, ?_⟩
  rw [Shelf.archive_tree]
  exact Shelf.status_blank

theorem reset_relied (stands : Stands keeping directory home g d a)
    (reply : runner (.reset directory) g d = (.output text, g', d')) :
    keeping.archive g' d' home = some ⟨a.commits, a.tree⟩ ∧
      Disk.SameDirectories (fun q => ¬Below home q) d d' ∧
      ∀ way content, a.tree way = some content → workingTree d' home way = some content := by
  obtain ⟨s, s', found, performed, found', there⟩ :=
    reply_performed (o := .reset) rfl nofun stands.sound stands.located reply
  obtain rfl := stands_archive stands found
  rw [Shelf.archive_tree]
  simp only [Shelf.perform] at performed
  split at performed
  · cases performed
  · cases performed
    refine ⟨archive_of_shelf found', fun q outside => ?_, fun way content held => ?_⟩
    · rw [Stock.reset_aside (.inl outside)]
    · obtain ⟨deep, free⟩ := s.last.inside _ (Stock.mem_of_tree held)
      exact workingTree_exact.mpr
        ⟨free, Stock.reset_file (fun root => deep (List.append_eq_nil_iff.mp root).2) held⟩

theorem clean_relied (stands : Stands keeping directory home g d a)
    (reply : runner (.clean directory) g d = (.output text, g', d')) :
    keeping.archive g' d' home = some a ∧
      Disk.SameDirectories (fun q => ¬Below home q) d d' ∧
      (∀ way, workingTree d' home way
        = if (a.index way).isSome then workingTree d home way else none) ∧
      ∀ way, way ≠ [] → way.head? ≠ some metadataName →
        d'.item? (home ++ way) = some .directory →
          ∃ more, (a.index (way ++ more)).isSome = true := by
  obtain ⟨s, s', found, performed, found', there⟩ :=
    reply_performed (o := .clean) rfl nofun stands.sound stands.located reply
  obtain rfl := stands_archive stands found
  cases performed
  refine ⟨archive_of_shelf found', fun q outside => ?_, fun way => Stock.clean_files there,
    fun way deep free left => ?_⟩
  · rw [Stock.clean_aside (.inl outside)]
  · obtain ⟨_, f, member, ⟨more, same⟩, _⟩ := Stock.clean_inside free deep left
    refine ⟨more, ?_⟩
    rw [same]
    exact Stock.tree_isSome member

-- Of two files on a disk neither is above the other.
theorem files_apart {way other : Place} {content content' : ByteArray} (sound : d.Sound)
    (first : d.item? (home ++ way) = some (.file content))
    (second : d.item? (home ++ other) = some (.file content')) (leads : way <+: other) :
    other = way := by
  obtain ⟨more, rfl⟩ := leads
  by_cases none : more = []
  · rw [none, List.append_nil]
  · rw [← List.append_assoc] at second
    have present : (d.item? (home ++ way ++ more)).isSome = true := by
      rw [second]
      rfl
    rw [Disk.directory_above sound present none] at first
    cases first

theorem add_relied {file : String} {way : Place} {content : ByteArray}
    (stands : Stands keeping directory home g d a) (named : Path.ofString file = ⟨.here, way⟩)
    (present : d.item? (home ++ way) = some (.file content))
    (all : ∀ other, (a.index other).isSome = true → (workingTree d home other).isSome = true)
    (reply : runner (.add directory file) g d = (.output text, g', d')) :
    keeping.archive g' d' home = some (a.put way content) ∧ Quiet home d d' := by
  obtain ⟨s, s', found, performed, found', there⟩ :=
    reply_performed (o := .add file) rfl nofun stands.sound stands.located reply
  obtain rfl := stands_archive stands found
  obtain ⟨index, added, same⟩ := Option.map_eq_some_iff.mp performed
  cases same
  refine ⟨?_, fun _ _ => rfl⟩
  rw [archive_of_shelf found']
  unfold Shelf.added? at added
  rw [named] at added
  dsimp only at added
  split at added
  · rename_i free
    rw [present] at added
    cases added
    have index : (s.index.add way content free).tree = s.index.tree.put way content := by
      refine Stock.tree_add fun other indexed met => ?_
      obtain ⟨bytes, there⟩ := Option.isSome_iff_exists.mp (all other indexed)
      obtain ⟨_, entry⟩ := workingTree_exact.mp there
      rcases (Bool.or_eq_true _ _).mp met with down | up
      · exact files_apart stands.sound present entry (List.isPrefixOf_iff_prefix.mp down)
      · exact (files_apart stands.sound entry present (List.isPrefixOf_iff_prefix.mp up)).symm
    unfold Archive.put Shelf.archive
    rw [index]
  · cases added

theorem add_answered {file : String} {way : Place} {content : ByteArray}
    (stands : Stands keeping directory home g d a) (named : Path.ofString file = ⟨.here, way⟩)
    (free : way.head? ≠ some metadataName)
    (present : d.item? (home ++ way) = some (.file content)) :
    Answers runner (.add directory file) g d := by
  refine answers_performed (o := .add file) rfl stands fun s _ => ?_
  have deep : way ≠ [] := by
    rintro rfl
    obtain ⟨s, found, _⟩ := Option.map_eq_some_iff.mp stands.archived
    rw [List.append_nil, home_of_shelf stands.sound found] at present
    cases present
  simp only [Shelf.perform, Shelf.added?, named]
  rw [dif_pos ⟨deep, free⟩, present]
  rfl

theorem add_refused {file : String} {way : Place} (located : d.locate directory = .ok home)
    (named : Path.ofString file = ⟨.here, way⟩) (own : way.head? = some metadataName) :
    ¬Answers runner (.add directory file) g d := by
  rintro ⟨text, g', d', reply⟩
  have answered := reply_exact (o := .add file) rfl located reply
  unfold answer at answered
  cases found : g.shelf? d home with
  | none =>
    rw [found] at answered
    cases answered
  | some s =>
    rw [found] at answered
    obtain ⟨done, performed, _⟩ := Option.map_eq_some_iff.mp answered
    obtain ⟨index, added, _⟩ := Option.map_eq_some_iff.mp performed
    unfold Shelf.added? at added
    rw [named] at added
    split at added
    · rename_i free
      exact free.2 own
    · cases added

theorem shelf_none (fresh : d.item? (metadataPlace home) = none) : g.shelf? d home = none := by
  unfold shelf?
  rw [fresh]
  rfl

-- A repository that begins holds nothing.
theorem shelf_begun :
    (g.put home ⟨[], .empty⟩).shelf? (d.put (metadataPlace home) .directory) home = some ⟨[], .empty⟩ := by
  refine shelf_put ?_
  rw [Disk.item?_put _ _ _ _ metadata_deep, if_pos rfl]

theorem init_relied (located : d.locate directory = .ok home)
    (fresh : d.item? (metadataPlace home) = none)
    (reply : runner (.init directory) g d = (.output text, g', d')) :
    keeping.archive g' d' home = some ⟨[], .empty⟩ ∧ Quiet home d d' := by
  have answered := reply_exact (o := .init) rfl located reply
  unfold answer begin at answered
  rw [shelf_none fresh] at answered
  dsimp only at answered
  split at answered
  · cases answered
    refine ⟨archive_of_shelf shelf_begun, fun q unkept => ?_⟩
    rw [Disk.item?_put _ _ _ _ metadata_deep, if_neg]
    rintro rfl
    exact unkept List.prefix_rfl
  · cases answered

-- What a call comes to: nothing, something in a repository, or a new repository.
inductive Turn (c : Call) (g : Memory) (d : Disk) : Reply → Memory → Disk → Prop where
  | refused : Turn c g d (.failed (.code 128) none) g d
  | performed {s s' : Shelf} {o : Order} {text : String} {d' : Disk}
      (ordered : Order.ofArguments c.arguments = some o) (found : g.shelf? d c.directory.place = some s)
      (performed : s.perform c.directory.place d o = some (text, s', d')) :
      Turn c g d (.output text) (g.put c.directory.place s') d'
  | begun (ordered : Order.ofArguments c.arguments = some .init) (there : d.item? c.directory.place = some .directory)
      (fresh : d.item? (metadataPlace c.directory.place) = none) :
      Turn c g d (.output "") (g.put c.directory.place ⟨[], .empty⟩)
        (d.put (metadataPlace c.directory.place) .directory)

theorem turn : Turn c g d (runner c g d).1 (runner c g d).2.1 (runner c g d).2.2 := by
  unfold runner
  split
  · rename_i home o located ordered
    obtain rfl := Disk.locate_place located
    split
    · rename_i done answered
      unfold answer at answered
      cases found : g.shelf? d c.directory.place with
      | some s =>
        rw [found] at answered
        obtain ⟨⟨_, _, _⟩, performed, rfl⟩ := Option.map_eq_some_iff.mp answered
        exact .performed ordered found performed
      | none =>
        rw [found] at answered
        cases o with
        | init =>
          simp only [begin] at answered
          split at answered
          · rename_i fresh
            cases answered
            exact .begun ordered fresh.1 fresh.2
          · cases answered
        | _ => cases answered
    · exact .refused
  · exact .refused

theorem call_sound (sound : d.Sound) : (runner c g d).2.2.Sound := by
  have turned : Turn c g d (runner c g d).1 (runner c g d).2.1 (runner c g d).2.2 := turn
  generalize (runner c g d).1 = reply, (runner c g d).2.1 = g', (runner c g d).2.2 = d' at turned ⊢
  cases turned with
  | refused => exact sound
  | performed _ found performed => exact Shelf.perform_sound performed sound (home_of_shelf sound found)
  | begun _ there _ =>
    refine Disk.put_sound sound metadata_deep ?_ (.inr rfl)
    rw [metadataPlace, List.dropLast_concat]
    exact there

-- Nothing is touched outside of the directory in which a call is made.
theorem call_aside {q : Place} (aside : ¬c.directory.place <+: q) :
    (runner c g d).2.2.item? q = d.item? q := by
  have turned : Turn c g d (runner c g d).1 (runner c g d).2.1 (runner c g d).2.2 := turn
  generalize (runner c g d).1 = reply, (runner c g d).2.1 = g', (runner c g d).2.2 = d' at turned ⊢
  cases turned with
  | refused => rfl
  | performed _ _ performed => exact Shelf.perform_aside performed (.inl fun below => aside below.1)
  | begun _ _ _ =>
    rw [Disk.item?_put _ _ _ _ metadata_deep, if_neg]
    rintro rfl
    exact aside metadata_inside

theorem diff_relied (stands : Stands keeping directory home g d a)
    (reply : runner (.diff directory) g d = (.output text, g', d')) :
    keeping.archive g' d' home = some a ∧ Quiet home d d' ∧
      keeping.Lists a.tree a.index text := by
  obtain ⟨s, s', found, performed, found', _⟩ :=
    reply_performed (o := .diff) rfl nofun stands.sound stands.located reply
  obtain rfl := stands_archive stands found
  cases performed
  rw [Shelf.archive_tree]
  exact ⟨archive_of_shelf found', fun _ _ => rfl, s.differing, fun _ => Shelf.mem_differing, rfl⟩

theorem commit_relied {message : String} {identity : Identity} {allowEmpty : Bool}
    (stands : Stands keeping directory home g d a)
    (reply : runner (.commit directory message identity allowEmpty) g d = (.output text, g', d')) :
    ∃ c, keeping.archive g' d' home = some ⟨(c, a.index) :: a.commits, a.index⟩ ∧
      Quiet home d d' := by
  have ordered : Order.ofArguments (Call.commit directory message identity allowEmpty).arguments
      = some (.commit message allowEmpty) := by
    cases allowEmpty <;> rfl
  obtain ⟨s, s', found, performed, found', _⟩ :=
    reply_performed ordered nofun stands.sound stands.located reply
  obtain rfl := stands_archive stands found
  simp only [Shelf.perform] at performed
  split at performed
  · cases performed
    exact ⟨_, archive_of_shelf found', fun _ _ => rfl⟩
  · cases performed

theorem revParse_relied (stands : Stands keeping directory home g d a)
    (reply : runner (.revParse directory) g d = (.output text, g', d')) :
    keeping.archive g' d' home = some a ∧ Quiet home d d' ∧
      ∃ c, a.last = some c ∧ Blank.trimString text = c.sha := by
  obtain ⟨s, s', found, performed, found', _⟩ :=
    reply_performed (o := .revParse) rfl nofun stands.sound stands.located reply
  obtain rfl := stands_archive stands found
  obtain ⟨entry, first, same⟩ := Option.map_eq_some_iff.mp performed
  cases same
  refine ⟨archive_of_shelf found', fun _ _ => rfl, entry.commit, ?_, rfl⟩
  unfold Archive.last Shelf.archive
  rw [List.head?_map, first]
  rfl

-- The last commit is found by its name.
theorem log_finds {s : Shelf} {c : Commit} (last : s.archive.last = some c) :
    ∃ entry, entry.commit = c ∧
      s.entries.find? (fun entry => entry.commit.sha = c.sha) = some entry := by
  unfold Archive.last Shelf.archive at last
  cases entries : s.entries with
  | nil =>
    rw [entries] at last
    cases last
  | cons entry rest =>
    rw [entries] at last
    obtain rfl : entry.commit = c := Option.some.inj last
    exact ⟨entry, rfl, List.find?_cons_of_pos (decide_eq_true rfl)⟩

theorem log_relied {c : Commit} (stands : Stands keeping directory home g d a)
    (last : a.last = some c) (reply : runner (.log directory c.sha) g d = (.output text, g', d')) :
    keeping.archive g' d' home = some a ∧ Quiet home d d' ∧ Blank.trimString text = c.message := by
  obtain ⟨s, s', found, performed, found', _⟩ :=
    reply_performed (o := .log c.sha) rfl nofun stands.sound stands.located reply
  obtain rfl := stands_archive stands found
  obtain ⟨entry, rfl, finds⟩ := log_finds last
  obtain ⟨other, finds', same⟩ := Option.map_eq_some_iff.mp performed
  rw [finds] at finds'
  cases finds'
  cases same
  exact ⟨archive_of_shelf found', fun _ _ => rfl, rfl⟩

theorem lawful : Lawful runner keeping where
  kept archived := by
    obtain ⟨s, found, _⟩ := Option.map_eq_some_iff.mp archived
    rw [shelf_kept found]
    rfl
  same unchanged := by
    change Option.map _ (shelf? _ _ _) = Option.map _ (shelf? _ _ _)
    unfold shelf?
    rw [unchanged _ List.prefix_rfl]
  printed := Shelf.printed
  sound sound _ reply := by
    have after : _ = _ := congrArg (fun answered => answered.2.2) reply
    dsimp only at after
    rw [← after]
    exact call_sound sound
  status sound located _ reply := status_relied sound located reply
  status_answers stands := answers_performed (o := .status) rfl stands fun _ _ => rfl
  reset := reset_relied
  reset_answers stands born := by
    refine answers_performed (o := .reset) rfl stands fun s same => ?_
    obtain ⟨entry, rest, entries⟩ := entry_of_born same born
    simp only [Shelf.perform, entries]
    rfl
  clean := clean_relied
  clean_answers stands := answers_performed (o := .clean) rfl stands fun _ _ => rfl
  add := add_relied
  add_refused := add_refused
  add_answers := add_answered
  diff := diff_relied
  diff_answers stands := answers_performed (o := .diff) rfl stands fun _ _ => rfl
  init _ := init_relied
  commit := commit_relied
  revParse := revParse_relied
  revParse_answers stands born := by
    refine answers_performed (o := .revParse) rfl stands fun s same => ?_
    obtain ⟨entry, rest, entries⟩ := entry_of_born same born
    simp only [Shelf.perform, entries]
    rfl
  log := log_relied
  log_answers stands last := by
    refine answers_performed (o := .log _) rfl stands fun s same => ?_
    subst same
    obtain ⟨entry, _, finds⟩ := log_finds last
    simp only [Shelf.perform]
    rw [finds]
    rfl

end Memory
end InlineProject.Git
