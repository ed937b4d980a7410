/-!
Markup trees. An element holds the text before its first child, and every child the text that
follows it, so that mixed content keeps its order.
-/

namespace InlineProject.Xml

/-- A name with its namespace. -/
structure Name where
  space : Option String
  label : String
deriving DecidableEq, Repr, Inhabited

inductive Node where
  | element (name : Name) (attributes : List (Name × String)) (text : String)
      (children : List Node) (tail : String)
  | comment (text tail : String)
deriving Inhabited

namespace Node

def tail : Node → String
  | .element _ _ _ _ tail => tail
  | .comment _ tail => tail

def withTail (tail : String) : Node → Node
  | .element name attributes text children _ => .element name attributes text children tail
  | .comment text _ => .comment text tail

def name? : Node → Option Name
  | .element name _ _ _ _ => some name
  | .comment _ _ => none

/-- The name without its namespace; a comment has none. -/
def label (n : Node) : String := (n.name?.map (·.label)).getD ""

def children : Node → List Node
  | .element _ _ _ children _ => children
  | .comment _ _ => []

end Node
end InlineProject.Xml
