import InlineProject.Source.Span
/-!
What a grammar makes of a source text, as far as the parts of a file depend on it: which ranges are
comments and using directives, and how they lie in each other.
-/

namespace InlineProject.Source

inductive Label where
  | comment
  | directive
  | other
deriving DecidableEq, Repr

inductive Tree where
  | node (label : Label) (range : Range) (children : List Tree)

abbrev Grammar := List Char → Tree

namespace Tree

def label : Tree → Label
  | .node label _ _ => label

def range : Tree → Range
  | .node _ range _ => range

def children : Tree → List Tree
  | .node _ _ children => children

mutual
/-- The directives of a text in order. None lies in a comment, and of two in each other only the
outer one counts. -/
def directives : Tree → List Range
  | .node .directive range _ => [range]
  | .node .comment _ _ => []
  | .node .other _ children => directivesAmong children

def directivesAmong : List Tree → List Range
  | [] => []
  | t :: rest => directives t ++ directivesAmong rest
end

/-- Where the first thing at the top begins that is no comment, in a text of some length. -/
def firstCode (t : Tree) (length : Nat) : Nat :=
  ((t.children.find? fun child => child.label ≠ .comment).map (·.range.start)).getD length

/-- The comments at the top before all else. -/
def headComments (t : Tree) (length : Nat) : List Range :=
  (t.children.filter fun child =>
    child.label = .comment && child.range.stop ≤ t.firstCode length).map (·.range)

/-- The comments at the head of a text and its directives. -/
def places (t : Tree) (length : Nat) : List Range × List Range :=
  (t.headComments length, t.directives)

end Tree

/-- The parts of a text by a grammar. -/
def Unit.parse (g : Grammar) (s : String) : Unit :=
  .ofRanges s.toList fun cs => (g cs).places cs.length

end InlineProject.Source
