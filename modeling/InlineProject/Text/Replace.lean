/-!
Replacing every occurrence of a pattern, from left to right and without overlap.
-/

namespace InlineProject.Replace

-- The fuel is the length of the text: each step consumes a character or more.
def allFrom (pattern by_ : List Char) : Nat → List Char → List Char
  | 0, cs => cs
  | _ + 1, [] => []
  | fuel + 1, c :: rest =>
      if pattern.isPrefixOf (c :: rest) then
        by_ ++ allFrom pattern by_ fuel ((c :: rest).drop pattern.length)
      else c :: allFrom pattern by_ fuel rest

/-- Every occurrence of a pattern that is not empty. -/
def all (pattern by_ cs : List Char) : List Char :=
  if pattern.isEmpty then cs else allFrom pattern by_ cs.length cs

def allString (pattern by_ : String) (s : String) : String :=
  String.ofList (all pattern.toList by_.toList s.toList)

end InlineProject.Replace
