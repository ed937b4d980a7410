/-!
Paths: names from a starting point on. A path is kept as written, apart from empty parts and parts
for the current directory; steps to a parent directory stay until the path is resolved.
-/

namespace InlineProject

/-- Where a path starts. Exactly two slashes in front are kept apart from one. -/
inductive Anchor where
  | here
  | root
  | doubleRoot
deriving DecidableEq, Repr, Inhabited

def Anchor.text : Anchor → String
  | .here => ""
  | .root => "/"
  | .doubleRoot => "//"

structure Path where
  anchor : Anchor
  parts : List String
deriving DecidableEq, Repr, Inhabited

namespace Path

def hereName : String := "."
def parentName : String := ".."

def anchorOf (s : String) : Anchor :=
  match (s.toList.takeWhile (· == '/')).length with
  | 0 => .here
  | 2 => .doubleRoot
  | _ => .root

def ofString (s : String) : Path :=
  let names := (s.toList.splitOn '/').map String.ofList
  ⟨anchorOf s, names.filter fun n => !n.isEmpty && n != hereName⟩

def toString (p : Path) : String :=
  if p.anchor = .here && p.parts.isEmpty then hereName
  else p.anchor.text ++ "/".intercalate p.parts

def isAbsolute (p : Path) : Bool := p.anchor != .here

/-- Whether a name holds a null character, which no name may. -/
def hasNull (p : Path) : Bool := p.parts.any fun name => name.toList.contains '\x00'

/-- Goes on from a path; an absolute path starts anew. -/
def append (p q : Path) : Path := if q.isAbsolute then q else ⟨p.anchor, p.parts ++ q.parts⟩

instance : Append Path := ⟨append⟩

/-- Goes on from a path by what a text says. -/
def join (p : Path) (s : String) : Path := p ++ ofString s

def parent (p : Path) : Path := ⟨p.anchor, p.parts.dropLast⟩

/-- The last part; empty for a starting point. -/
def name (p : Path) : String := p.parts.getLast?.getD ""

/-- The last dot of a name starts its suffix, unless it stands first or last. -/
def splitName (name : String) : String × String :=
  let cs := name.toList
  let behind := (cs.reverse.takeWhile (· != '.')).length
  let before := cs.length - behind - 1
  if behind = cs.length || behind = 0 || before = 0 then (name, "")
  else (String.ofList (cs.take before), String.ofList (cs.drop before))

def stem (p : Path) : String := (splitName p.name).1

def suffix (p : Path) : String := (splitName p.name).2

-- `done` holds the names so far, innermost first. Above the root there is only the root.
def settleFrom (done : List String) : List String → List String
  | [] => done.reverse
  | name :: rest =>
      if name = parentName then settleFrom done.tail rest else settleFrom (name :: done) rest

/-- The absolute path without steps to a parent directory, seen from a directory. -/
def resolve (p here : Path) : Path := ⟨.root, settleFrom [] (here ++ p).parts⟩

/-- The way to a path from one above it, or from the path itself. -/
def relativeTo? (p base : Path) : Option Path :=
  if p.anchor = base.anchor && base.parts.isPrefixOf p.parts then
    some ⟨.here, p.parts.drop base.parts.length⟩
  else none

end Path
end InlineProject
