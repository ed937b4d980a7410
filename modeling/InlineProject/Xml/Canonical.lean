import InlineProject.Text.Blank
import InlineProject.Xml.Printer
/-!
The canonical form of a document: every child of an element without other text on a line of its
own, two spaces further in than its parent, and the namespace of the root without a prefix.
-/

namespace InlineProject.Xml

def margin (level : Nat) : String := String.ofList ('\n' :: List.replicate (2 * level) ' ')

def isBlankString (s : String) : Bool := Blank.isBlankText s.toList

/-- Replaces blank text; other text is content and stays. -/
def settle (by_ : String) (s : String) : String := if isBlankString s then by_ else s

-- Behind the last child the margin is that of the parent.
def settleLast (by_ : String) : List Node → List Node
  | [] => []
  | [n] => [n.withTail (settle by_ n.tail)]
  | n :: rest => n :: settleLast by_ rest

mutual
/-- Indents the children of an element that stands at a level. -/
def Node.indent (level : Nat) : Node → Node
  | .comment text tail => .comment text tail
  | .element name attributes text children tail =>
      if children.isEmpty then .element name attributes text children tail
      else
        .element name attributes (settle (margin (level + 1)) text)
          (settleLast (margin level) (indentAll (level + 1) children)) tail

def indentAll (level : Nat) : List Node → List Node
  | [] => []
  | n :: rest => (n.indent level).withTail (settle (margin level) n.tail) :: indentAll level rest
end

/-! ### The default namespace -/

mutual
/-- Drops a namespace from the names of all elements. -/
def Node.withoutSpace (uri : String) : Node → Node
  | .comment text tail => .comment text tail
  | .element name attributes text children tail =>
      let name := if name.space = some uri then ⟨none, name.label⟩ else name
      .element name attributes text (withoutSpaceAll uri children) tail

def withoutSpaceAll (uri : String) : List Node → List Node
  | [] => []
  | n :: rest => n.withoutSpace uri :: withoutSpaceAll uri rest
end

/-- The namespace of the root that can be made the default one. -/
def Node.rootSpace? (n : Node) : Option String :=
  match n.name?.bind (·.space) with
  | some uri => if uri.isEmpty || uri.toList.contains '\n' then none else some uri
  | none => none

def Node.addDefault (uri : String) : Node → Node
  | .element name attributes text children tail =>
      .element name ((⟨none, "xmlns"⟩, uri) :: attributes) text children tail
  | n => n

/-- Makes the namespace of the root the default one. -/
def Node.adoptSpace (n : Node) : Node :=
  match n.rootSpace? with
  | some uri => (n.withoutSpace uri).addDefault uri
  | none => n

def Node.canonical (n : Node) : List Char := ((n.indent 0).adoptSpace).toText

end InlineProject.Xml
