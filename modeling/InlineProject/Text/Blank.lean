/-!
Blank characters: what trimming removes and what separates words. The class is the one of Unicode
(white space or bidirectional separators), not the six characters of ASCII.
-/

namespace InlineProject

/-- White space of Unicode together with the four ASCII separators. -/
def isBlank (c : Char) : Bool :=
  let n := c.toNat
  (0x09 ≤ n && n ≤ 0x0D) || (0x1C ≤ n && n ≤ 0x20) || n == 0x85 || n == 0xA0 || n == 0x1680
    || (0x2000 ≤ n && n ≤ 0x200A) || n == 0x2028 || n == 0x2029 || n == 0x202F || n == 0x205F
    || n == 0x3000

namespace Blank

def trimStart (cs : List Char) : List Char := cs.dropWhile isBlank

def trimEnd (cs : List Char) : List Char := (cs.reverse.dropWhile isBlank).reverse

def trim (cs : List Char) : List Char := trimEnd (trimStart cs)

def trimString (s : String) : String := String.ofList (trim s.toList)

def isBlankText (cs : List Char) : Bool := cs.all isBlank

-- The word that is being read is carried along in reverse.
def wordsFrom (word : List Char) : List Char → List (List Char)
  | [] => if word.isEmpty then [] else [word.reverse]
  | c :: rest =>
      if isBlank c then
        if word.isEmpty then wordsFrom [] rest else word.reverse :: wordsFrom [] rest
      else wordsFrom (c :: word) rest

/-- The maximal runs without a blank, in order. -/
def words (cs : List Char) : List (List Char) := wordsFrom [] cs

/-- Words joined by one space: every run of blanks counts as one space, those at the ends as none. -/
def squeeze (s : String) : String :=
  String.ofList (List.intercalate [' '] (words s.toList))

end Blank
end InlineProject
