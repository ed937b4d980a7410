/-!
Lines. A text is cut either at line feeds alone, or at every line boundary of Unicode, where a
carriage return with a line feed counts as one boundary.
-/

namespace InlineProject.Lines

/-- The characters that end a line. -/
def isBoundary (c : Char) : Bool :=
  let n := c.toNat
  (0x0A ≤ n && n ≤ 0x0D) || (0x1C ≤ n && n ≤ 0x1E) || n == 0x85 || n == 0x2028 || n == 0x2029

-- `line` holds the current line in reverse. A boundary at the very end opens no further line.
def splitFrom (line : List Char) : List Char → List (List Char)
  | [] => if line.isEmpty then [] else [line.reverse]
  | '\r' :: '\n' :: rest => line.reverse :: splitFrom [] rest
  | c :: rest =>
      if isBoundary c then line.reverse :: splitFrom [] rest else splitFrom (c :: line) rest

/-- The lines without their boundaries. -/
def split (cs : List Char) : List (List Char) := splitFrom [] cs

/-- Every carriage return, alone or before a line feed, becomes one line feed. -/
def unifyBreaks : List Char → List Char
  | [] => []
  | '\r' :: '\n' :: rest => '\n' :: unifyBreaks rest
  | '\r' :: rest => '\n' :: unifyBreaks rest
  | c :: rest => c :: unifyBreaks rest

def unifyBreaksString (s : String) : String := String.ofList (unifyBreaks s.toList)

end InlineProject.Lines
