import InlineProject.Text.Blank
/-!
Removing the margin that all lines of a text share.
-/

namespace InlineProject.Dedent

-- Only spaces and tabs make a margin; a line of nothing else has none and is emptied.
def isIndent (c : Char) : Bool := c == ' ' || c == '\t'

def commonStart : List Char → List Char → List Char
  | a :: as, b :: bs => if a = b then a :: commonStart as bs else []
  | _, _ => []

/-- The margin of the lines that hold more than spaces and tabs. -/
def margin (lines : List (List Char)) : List Char :=
  match (lines.filter (!·.all isIndent)).map (·.takeWhile isIndent) with
  | [] => []
  | first :: rest => rest.foldl commonStart first

/-- Lines of spaces and tabs alone become empty, the others lose their common margin. -/
def lines (ls : List (List Char)) : List (List Char) :=
  let m := margin ls
  ls.map fun l => if l.all isIndent then [] else l.drop m.length

end InlineProject.Dedent
