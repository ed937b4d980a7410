import InlineProject.Git.Repository
import InlineProject.Proofs.DiskWays
/-!
What is relied on in a version control program. A repository is a history, an index and the files of its
directory; the laws say what each call does to these three, and when it answers.
-/

namespace InlineProject.Git

-- The contents of files, each at the way that leads to it from the directory of a repository.
abbrev Tree := Place → Option ByteArray

def Tree.empty : Tree := fun _ => none

def Tree.put (t : Tree) (way : Place) (content : ByteArray) : Tree :=
  fun other => if other = way then some content else t other

structure Archive where
  -- Every commit with its files, the last one first.
  commits : List (Commit × Tree)
  index : Tree

namespace Archive

def last (a : Archive) : Option Commit := a.commits.head?.map (·.1)

-- The files of the last commit.
def tree (a : Archive) : Tree := (a.commits.head?.map (·.2)).getD .empty

def put (a : Archive) (way : Place) (content : ByteArray) : Archive :=
  ⟨a.commits, a.index.put way content⟩

end Archive

-- What the program keeps of a repository lies below this place.
def metadataPlace (home : Place) : Place := home ++ [metadataName]

def Unkept (home q : Place) : Prop := ¬metadataPlace home <+: q

-- The files that stand in the directory of a repository.
def workingTree (d : Disk) (home : Place) : Tree := fun way =>
  if way.head? = some metadataName then none
  else
    match d.item? (home ++ way) with
    | some (.file content) => some content
    | _ => none

-- Nothing is touched but what the program keeps for itself.
def Quiet (home : Place) (d d' : Disk) : Prop := ∀ q, Unkept home q → d'.item? q = d.item? q

/-! ### Calls -/

namespace Call

def status (directory : Path) : Call :=
  ⟨[program, "status", "--porcelain"], directory, none, true⟩

def reset (directory : Path) : Call :=
  ⟨[program, "reset", "--hard", "--quiet", "HEAD"], directory, none, false⟩

def clean (directory : Path) : Call :=
  ⟨[program, "clean", "-fd", "--quiet"], directory, none, false⟩

def add (directory : Path) (file : String) : Call :=
  ⟨[program, "add", "--", file], directory, none, false⟩

def diff (directory : Path) : Call :=
  ⟨[program, "diff", "--cached", "--name-only"], directory, none, true⟩

def init (directory : Path) : Call :=
  ⟨[program, "-c", "init.defaultBranch=main", "init", "--quiet"], directory, none, false⟩

def commit (directory : Path) (message : String) (identity : Identity) (allowEmpty : Bool) : Call :=
  ⟨Repository.commitArguments message allowEmpty, directory, some identity, false⟩

def revParse (directory : Path) : Call :=
  ⟨[program, "rev-parse", "HEAD"], directory, none, true⟩

def log (directory : Path) (sha : String) : Call :=
  ⟨[program, "log", "-1", "--format=%B", sha], directory, none, true⟩

end Call

variable {σ : Type}

-- What a program keeps: the repository at a place, where one is, and how it prints the way to a file.
structure Keeping (σ : Type) where
  archive : σ → Disk → Place → Option Archive
  print : Place → String

-- The files in which two trees differ, one a line and in any order.
def Keeping.Lists (k : Keeping σ) (t t' : Tree) (text : String) : Prop :=
  ∃ ways : List Place, (∀ way, way ∈ ways ↔ t way ≠ t' way) ∧
    text = String.join (ways.map fun way => k.print way ++ "\n")

-- No more than blanks is listed.
def Keeping.Silent (k : Keeping σ) (t t' : Tree) : Prop :=
  ∀ way, t way ≠ t' way → Blank.isBlankText (k.print way).toList = true

-- A directory is at its place, and has a repository.
structure Stands (k : Keeping σ) (directory : Path) (home : Place) (g : σ) (d : Disk) (a : Archive) :
    Prop where
  sound : d.Sound
  located : d.locate directory = .ok home
  archived : k.archive g d home = some a

def Answers (runner : Runner σ) (c : Call) (g : σ) (d : Disk) : Prop :=
  ∃ text g' d', runner c g d = (.output text, g', d')

-- What the calls of a program do where it answers them, and where it does.
structure Lawful (runner : Runner σ) (k : Keeping σ) : Prop where
  kept {g : σ} {d : Disk} {home : Place} {a : Archive} (archived : k.archive g d home = some a) :
    (d.item? (metadataPlace home)).isSome = true
  same {g : σ} {d d' : Disk} {home : Place}
    (same : ∀ q, metadataPlace home <+: q → d'.item? q = d.item? q) :
    k.archive g d' home = k.archive g d home
  -- The names on a way are kept apart by something that is no blank.
  printed {way : Place} (long : 2 ≤ way.length) : Blank.isBlankText (k.print way).toList = false
  -- Whatever is called, every entry of the disk stands in a directory afterwards.
  sound {c : Call} {home : Place} {g g' : σ} {d d' : Disk} {text : String} (sound : d.Sound)
    (located : d.locate c.directory = .ok home) (reply : runner c g d = (.output text, g', d')) :
    d'.Sound
  status {directory : Path} {home : Place} {g g' : σ} {d d' : Disk} {text : String}
    (sound : d.Sound) (located : d.locate directory = .ok home)
    (kept : (d.item? (metadataPlace home)).isSome = true)
    (reply : runner (.status directory) g d = (.output text, g', d')) :
    ∃ a, k.archive g d home = some a ∧ k.archive g' d' home = some a ∧ Quiet home d d' ∧
      (Blank.isBlankText text.toList = true ↔ a.tree = a.index ∧ a.index = workingTree d home)
  status_answers {directory : Path} {home : Place} {g : σ} {d : Disk} {a : Archive}
    (stands : Stands k directory home g d a) : Answers runner (.status directory) g d
  reset {directory : Path} {home : Place} {g g' : σ} {d d' : Disk} {text : String} {a : Archive}
    (stands : Stands k directory home g d a)
    (reply : runner (.reset directory) g d = (.output text, g', d')) :
    k.archive g' d' home = some ⟨a.commits, a.tree⟩ ∧
      Disk.SameDirectories (fun q => ¬Below home q) d d' ∧
      ∀ way content, a.tree way = some content → workingTree d' home way = some content
  reset_answers {directory : Path} {home : Place} {g : σ} {d : Disk} {a : Archive}
    (stands : Stands k directory home g d a) (born : a.commits ≠ []) :
    Answers runner (.reset directory) g d
  -- The directories that are left hold files of the index.
  clean {directory : Path} {home : Place} {g g' : σ} {d d' : Disk} {text : String} {a : Archive}
    (stands : Stands k directory home g d a)
    (reply : runner (.clean directory) g d = (.output text, g', d')) :
    k.archive g' d' home = some a ∧
      Disk.SameDirectories (fun q => ¬Below home q) d d' ∧
      (∀ way, workingTree d' home way
        = if (a.index way).isSome then workingTree d home way else none) ∧
      ∀ way, way ≠ [] → way.head? ≠ some metadataName →
        d'.item? (home ++ way) = some .directory → ∃ more, (a.index (way ++ more)).isSome = true
  clean_answers {directory : Path} {home : Place} {g : σ} {d : Disk} {a : Archive}
    (stands : Stands k directory home g d a) : Answers runner (.clean directory) g d
  add {directory : Path} {home : Place} {g g' : σ} {d d' : Disk} {text file : String} {way : Place}
    {content : ByteArray} {a : Archive} (stands : Stands k directory home g d a)
    (named : Path.ofString file = ⟨.here, way⟩)
    (present : d.item? (home ++ way) = some (.file content))
    (all : ∀ other, (a.index other).isSome = true → (workingTree d home other).isSome = true)
    (reply : runner (.add directory file) g d = (.output text, g', d')) :
    k.archive g' d' home = some (a.put way content) ∧ Quiet home d d'
  -- Nothing can be added that lies where the program keeps what is its own.
  add_refused {directory : Path} {home : Place} {g : σ} {d : Disk} {file : String} {way : Place}
    (located : d.locate directory = .ok home) (named : Path.ofString file = ⟨.here, way⟩)
    (own : way.head? = some metadataName) : ¬Answers runner (.add directory file) g d
  add_answers {directory : Path} {home : Place} {g : σ} {d : Disk} {file : String} {way : Place}
    {content : ByteArray} {a : Archive} (stands : Stands k directory home g d a)
    (named : Path.ofString file = ⟨.here, way⟩) (free : way.head? ≠ some metadataName)
    (present : d.item? (home ++ way) = some (.file content)) :
    Answers runner (.add directory file) g d
  diff {directory : Path} {home : Place} {g g' : σ} {d d' : Disk} {text : String} {a : Archive}
    (stands : Stands k directory home g d a)
    (reply : runner (.diff directory) g d = (.output text, g', d')) :
    k.archive g' d' home = some a ∧ Quiet home d d' ∧ k.Lists a.tree a.index text
  diff_answers {directory : Path} {home : Place} {g : σ} {d : Disk} {a : Archive}
    (stands : Stands k directory home g d a) : Answers runner (.diff directory) g d
  init {directory : Path} {home : Place} {g g' : σ} {d d' : Disk} {text : String} (sound : d.Sound)
    (located : d.locate directory = .ok home) (fresh : d.item? (metadataPlace home) = none)
    (reply : runner (.init directory) g d = (.output text, g', d')) :
    k.archive g' d' home = some ⟨[], .empty⟩ ∧ Quiet home d d'
  commit {directory : Path} {home : Place} {g g' : σ} {d d' : Disk} {text message : String}
    {identity : Identity} {allowEmpty : Bool} {a : Archive} (stands : Stands k directory home g d a)
    (reply : runner (.commit directory message identity allowEmpty) g d = (.output text, g', d')) :
    ∃ c, k.archive g' d' home = some ⟨(c, a.index) :: a.commits, a.index⟩ ∧ Quiet home d d'
  revParse {directory : Path} {home : Place} {g g' : σ} {d d' : Disk} {text : String} {a : Archive}
    (stands : Stands k directory home g d a)
    (reply : runner (.revParse directory) g d = (.output text, g', d')) :
    k.archive g' d' home = some a ∧ Quiet home d d' ∧
      ∃ c, a.last = some c ∧ Blank.trimString text = c.sha
  revParse_answers {directory : Path} {home : Place} {g : σ} {d : Disk} {a : Archive}
    (stands : Stands k directory home g d a) (born : a.commits ≠ []) :
    Answers runner (.revParse directory) g d
  log {directory : Path} {home : Place} {g g' : σ} {d d' : Disk} {text : String} {a : Archive}
    {c : Commit} (stands : Stands k directory home g d a) (last : a.last = some c)
    (reply : runner (.log directory c.sha) g d = (.output text, g', d')) :
    k.archive g' d' home = some a ∧ Quiet home d d' ∧ Blank.trimString text = c.message
  log_answers {directory : Path} {home : Place} {g : σ} {d : Disk} {a : Archive} {c : Commit}
    (stands : Stands k directory home g d a) (last : a.last = some c) :
    Answers runner (.log directory c.sha) g d

end InlineProject.Git
