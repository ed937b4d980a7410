import InlineProject.Source.Node
/-!
A source file in parts. The text of the parts in order is the text of the file.
-/

namespace InlineProject.Source

structure Unit where
  nodes : List Node
deriving DecidableEq, Inhabited

namespace Unit

/-- Parts numbered in order. -/
def ofParts (parts : List (Kind × String)) : Unit :=
  ⟨parts.zipIdx.map fun ((kind, text), place) => ⟨place, kind, text⟩⟩

/-- A text that is nothing but code; an empty text has no part at all. -/
def ofText (s : String) : Unit := ofParts (if s.isEmpty then [] else [(.code, s)])

def fullText (u : Unit) : String := String.join (u.nodes.map (·.text))

-- Blank code between comments does not end the head of a file.
def leadingFrom : List Node → List Node
  | [] => []
  | n :: rest =>
      if n.kind.isTrivia then n :: leadingFrom rest
      else if n.kind = .code && isBlankText n.text.toList then leadingFrom rest
      else []

/-- The comments before the first piece of code. -/
def leading (u : Unit) : List Node := leadingFrom u.nodes

def usings (u : Unit) : List Node := u.nodes.filter fun n => n.kind = .using

/-- The file without some of its parts. -/
def without (u : Unit) (gone : List Node) : Unit :=
  ⟨u.nodes.filter fun n => !(gone.any fun g => g.place = n.place)⟩

-- `seen` holds the keys of the directives so far.
def distinctFrom (seen : List (Kind × String)) : List Node → List Node
  | [] => []
  | n :: rest =>
      if seen.contains n.key then distinctFrom seen rest
      else n :: distinctFrom (n.key :: seen) rest

/-- The using directives, each only where it stands first. -/
def distinctUsings (u : Unit) : List Node := distinctFrom [] u.usings

/-- The comments that may hold a descriptor. -/
def descriptorComments (u : Unit) : List Node := u.leading.filter fun n => n.kind = .lineDoc

end Unit
end InlineProject.Source
