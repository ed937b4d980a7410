import InlineProject.Disk.Basic
/-!
What can be done with files and directories. A failure tells its cause and the path; what has been
done before it stays done. Paths are absolute.
-/

namespace InlineProject

abbrev DiskAction (α : Type) := ExceptT FileError (StateM Disk) α

namespace DiskAction

def refuse {α : Type} (cause : FileCause) (p : Path) : DiskAction α :=
  throw ⟨cause, p.toString⟩

def ofLook {α : Type} (f : Disk → Except FileError α) : DiskAction α := do
  match f (← get) with
  | .ok a => return a
  | .error e => throw e

def find? (p : Path) : DiskAction (Option Item) := ofLook fun d => d.look p

def pathExists (p : Path) : DiskAction Bool := return (← find? p).isSome

def isDirectory (p : Path) : DiskAction Bool := return (← find? p) = some .directory

def isFile (p : Path) : DiskAction Bool := do
  match ← find? p with
  | some (.file _) => return true
  | _ => return false

def locate (p : Path) : DiskAction Place := do
  match (← get).locate p with
  | .ok place => return place
  | .error cause => refuse cause p

/-- The absolute path without steps to a parent directory, seen from a directory. -/
def resolve (here p : Path) : DiskAction Path :=
  if p.hasNull then refuse .nullCharacter p else return p.resolve here

/-- The content of a file. -/
def read (p : Path) : DiskAction ByteArray := do
  let place ← locate p
  match (← get).item? place with
  | some (.file content) => return content
  | some .directory => refuse .isDirectory p
  | none => refuse .notFound p

/-- Where a new name can be entered: its directory has to be there. -/
def checkParent (place : Place) (p : Path) : DiskAction Unit := do
  match (← get).item? place.dropLast with
  | some .directory => return ()
  | some (.file _) => refuse .notDirectory p
  | none => refuse .notFound p

/-- Writes a file anew, whether it is there or not. -/
def write (p : Path) (content : ByteArray) : DiskAction Unit := do
  let place ← locate p
  match (← get).item? place with
  | some .directory => refuse .isDirectory p
  | _ => do
      checkParent place p
      modify fun d => d.put place (.file content)

/-- Makes an empty file unless there is a file already. -/
def touch (p : Path) : DiskAction Unit := do
  let place ← locate p
  match (← get).item? place with
  | some (.file _) => return ()
  | some .directory => refuse .isDirectory p
  | none => do
      checkParent place p
      modify fun d => d.put place (.file .empty)

def makeDirectory (p : Path) : DiskAction Unit := do
  let place ← locate p
  match (← get).item? place with
  | some _ => refuse .alreadyExists p
  | none => do
      checkParent place p
      modify fun d => d.put place .directory

/-- Makes a directory; that it is there already is no fault where `mayExist` says so. -/
def makeOne (mayExist : Bool) (p : Path) : DiskAction Unit :=
  tryCatch (makeDirectory p) fun e => do
    if mayExist && e.cause ≠ .notFound && e.cause ≠ .nullCharacter then
      if ← isDirectory p then return () else throw e
    else throw e

-- The names are given innermost first.
def makeFrom (anchor : Anchor) (mayExist : Bool) : List String → DiskAction Unit
  | [] => makeOne mayExist ⟨anchor, []⟩
  | name :: above =>
      let p : Path := ⟨anchor, (name :: above).reverse⟩
      tryCatch (makeOne mayExist p) fun e => do
        if e.cause = .notFound then
          makeFrom anchor true above
          makeOne mayExist p
        else throw e

/-- Makes a directory with those above it. -/
def makeDirectories (mayExist : Bool) (p : Path) : DiskAction Unit :=
  makeFrom p.anchor mayExist p.parts.reverse

end DiskAction
end InlineProject
