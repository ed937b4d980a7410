import InlineProject.Path
import InlineProject.Text.Quoted
/-!
Files and directories. A disk tells for each place what is there; paths lead to places step by step,
and every step leaves a directory that exists.
-/

namespace InlineProject

/-- Why something cannot be done with a file. -/
inductive FileCause where
  | notFound
  | alreadyExists
  | notDirectory
  | isDirectory
  | nameTooLong
  | notPermitted
  -- No name may hold a null character; the request is not even made.
  | nullCharacter
deriving DecidableEq, Repr

structure FileError where
  cause : FileCause
  -- The path, or the program, as it was given.
  subject : String
deriving DecidableEq, Repr

namespace FileCause

/-- How the system numbers and names a cause. -/
def system : FileCause → Nat × String
  | .notFound => (2, "No such file or directory")
  | .alreadyExists => (17, "File exists")
  | .notDirectory => (20, "Not a directory")
  | .isDirectory => (21, "Is a directory")
  | .nameTooLong => (36, "File name too long")
  | .notPermitted => (13, "Permission denied")
  | .nullCharacter => (22, "Invalid argument")

end FileCause

def FileError.message (e : FileError) : String :=
  match e.cause with
  | .nullCharacter => "embedded null byte"
  | cause =>
      "[Errno " ++ toString cause.system.1 ++ "] " ++ cause.system.2 ++ ": "
        ++ Quoted.ofString e.subject

/-- The names that lead to a place from the root, outermost first. -/
abbrev Place := List String

inductive Item where
  | file (content : ByteArray)
  | directory
deriving Inhabited

instance : DecidableEq Item
  | .file a, .file b =>
      match ByteArray.instDecidableEq a b with
      | .isTrue same => .isTrue (by rw [same])
      | .isFalse apart => .isFalse fun h => apart (Item.file.inj h)
  | .directory, .directory => .isTrue rfl
  | .file _, .directory => .isFalse nofun
  | .directory, .file _ => .isFalse nofun

/-- What is there, in the order in which it came. The root is not listed. -/
structure Disk where
  items : List (Place × Item)
deriving Inhabited

namespace Disk

def empty : Disk := ⟨[]⟩

/-- What is at a place; the root is always a directory. -/
def item? (d : Disk) (place : Place) : Option Item :=
  if place = [] then some .directory else d.items.lookup place

-- A place that is there keeps its position.
def putIn (place : Place) (item : Item) : List (Place × Item) → List (Place × Item)
  | [] => [(place, item)]
  | (other, old) :: rest =>
      if other = place then (place, item) :: rest else (other, old) :: putIn place item rest

def put (d : Disk) (place : Place) (item : Item) : Disk := ⟨putIn place item d.items⟩

/-- Takes away a place and all that is below it. -/
def erase (d : Disk) (place : Place) : Disk :=
  ⟨d.items.filter fun (other, _) => !place.isPrefixOf other⟩

/-- The names in a directory, with what they stand for. -/
def children (d : Disk) (place : Place) : List (String × Item) :=
  d.items.filterMap fun (other, item) =>
    if other.dropLast = place then other.getLast?.map fun name => (name, item) else none

/-- The greatest number of names that lead to a place. -/
def height (d : Disk) : Nat := d.items.foldl (fun h (place, _) => max h place.length) 0

theorem lookup_putIn (place other : Place) (item : Item) (items : List (Place × Item)) :
    (putIn place item items).lookup other
      = if other = place then some item else items.lookup other := by
  have apart {a b : Place} (h : a ≠ b) : (a == b) = false := by simp [h]
  induction items with
  | nil => by_cases h : other = place <;> simp [putIn, List.lookup_cons, h, apart]
  | cons entry rest ih =>
      obtain ⟨key, old⟩ := entry
      by_cases same : key = place
      · subst same
        by_cases h : other = key <;> simp [putIn, List.lookup_cons, h, apart]
      · by_cases h : other = key
        · subst h
          simp [putIn, same]
        · simp [putIn, same, List.lookup_cons, h, apart, ih]

/-- Writing at one place leaves all other places as they are. -/
theorem item?_put (d : Disk) (place other : Place) (item : Item) (inside : place ≠ []) :
    (d.put place item).item? other = if other = place then some item else d.item? other := by
  by_cases root : other = []
  · subst root
    simp [item?, Ne.symm inside]
  · simp [item?, put, root, lookup_putIn]

/-! ### Following paths -/

/-- File names have at most this many bytes. -/
def nameLimit : Nat := 255

-- Every step needs a directory to leave from.
def walk (d : Disk) (place : Place) : List String → Except FileCause Place
  | [] => .ok place
  | name :: rest =>
      match d.item? place with
      | none => .error .notFound
      | some (.file _) => .error .notDirectory
      | some .directory =>
          if name = Path.parentName then walk d place.dropLast rest
          else if nameLimit < name.utf8ByteSize then .error .nameTooLong
          else walk d (place ++ [name]) rest

/-- The place that a path leads to, from the root on. -/
def locate (d : Disk) (p : Path) : Except FileCause Place :=
  if p.hasNull then .error .nullCharacter else d.walk [] p.parts

/-- What a path leads to. That nothing is there is no fault; a name that is too long is one. -/
def look (d : Disk) (p : Path) : Except FileError (Option Item) :=
  match d.locate p with
  | .ok place => .ok (d.item? place)
  | .error .nameTooLong => .error ⟨.nameTooLong, p.toString⟩
  | .error _ => .ok none

end Disk
end InlineProject
