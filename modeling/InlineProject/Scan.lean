import InlineProject.Disk.Action
import InlineProject.Ignore.Pattern
import InlineProject.Text.Lowercase
import InlineProject.Text.Utf8
/-!
The source files below a directory. Directories of tools, ignored ones and those that are
repositories of their own are left out with all that is in them. Files come sorted by name, before
those of directories further down.
-/

namespace InlineProject

structure Scan where
  root : Path
  -- With the dot, in any case.
  suffixes : List String
  ignored : List Ignore.Pattern

namespace Scan

inductive Error where
  | notFound (root : Path)
  | notDirectory (root : Path)
  | encoding (e : Utf8.Failure)
  | file (e : FileError)
deriving DecidableEq

def Error.message : Error → String
  | .notFound root => "Source path not found: " ++ root.toString
  | .notDirectory root => "Source path is not a directory: " ++ root.toString
  | .encoding e => e.message
  | .file e => e.message

def excludedNames : List String :=
  [".git", ".hg", ".svn", ".vs", ".idea", "bin", "obj", "node_modules"]

def repositoryMark : String := ".git"

def ignoreFileName : String := ".gitignore"

/-- The path from the root of the scan on, as patterns see it. -/
def relativeChars (below : List String) : List Char := ("/".intercalate below).toList

def ignores (s : Scan) (below : List String) (isDirectory : Bool) : Bool :=
  Ignore.acceptsAny s.ignored (relativeChars below) isDirectory

/-- Whether a file below the root is one that is looked for. -/
def wants (s : Scan) (below : List String) (name : String) : Bool :=
  (s.suffixes.map Lowercase.ofString).contains (Lowercase.ofString (Path.splitName name).2)
    && !s.ignores (below ++ [name]) false

/-- Whether the scan goes into a directory. -/
def enters (s : Scan) (d : Disk) (start : Place) (below : List String) (name : String) : Bool :=
  !excludedNames.contains name && !s.ignores (below ++ [name]) true
    && (d.item? (start ++ below ++ [name, repositoryMark])).isNone

def sorted (names : List String) : List String := names.mergeSort fun a b => a ≤ b

def fileNames (d : Disk) (place : Place) : List String :=
  sorted <| (d.children place).filterMap fun (name, item) =>
    match item with
    | .file _ => some name
    | .directory => none

def directoryNames (d : Disk) (place : Place) : List String :=
  sorted <| (d.children place).filterMap fun (name, item) =>
    match item with
    | .file _ => none
    | .directory => some name

-- `fuel` bounds how far directories can lie within each other.
def namesFrom (s : Scan) (d : Disk) (start : Place) : Nat → List String → List (List String)
  | 0, _ => []
  | fuel + 1, below =>
      let files := (fileNames d (start ++ below)).filter (s.wants below)
      let directories := (directoryNames d (start ++ below)).filter (s.enters d start below)
      files.map (fun name => below ++ [name])
        ++ directories.flatMap fun name => namesFrom s d start fuel (below ++ [name])

/-- The files that are looked for below a place. -/
def files (s : Scan) (d : Disk) (start : Place) : List Path :=
  (s.namesFrom d start (d.height + 1) []).map fun below => ⟨s.root.anchor, s.root.parts ++ below⟩

/-- The patterns of what to ignore; without a file of such patterns there are none. -/
def patternsAt (d : Disk) (file : Path) : Except Error (List Ignore.Pattern) :=
  match d.look file with
  | .error e => .error (.file e)
  | .ok (some (.file content)) =>
      match Utf8.decode content with
      | .ok s => .ok (Ignore.patterns s.toList)
      | .error e => .error (.encoding e)
  | .ok _ => .ok []

/-- The source files below a directory, which is given by its absolute path. -/
def run (d : Disk) (root : Path) (suffixes : List String) : Except Error (List Path) :=
  match d.look root with
  | .error e => .error (.file e)
  | .ok none => .error (.notFound root)
  | .ok (some (.file _)) => .error (.notDirectory root)
  | .ok (some .directory) =>
      match patternsAt d (root.join ignoreFileName) with
      | .error e => .error e
      | .ok ignored => .ok (files ⟨root, suffixes, ignored⟩ d root.parts)

end Scan
end InlineProject
