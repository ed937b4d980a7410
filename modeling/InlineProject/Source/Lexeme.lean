import InlineProject.Source.Span
/-!
The lexemes of a source text, as far as comments and using directives have to be told apart from
what stands inside of literals. The lengths of the lexemes add up to the length of the text.
-/

namespace InlineProject.Source

inductive Lexeme where
  | gap
  | comment
  -- A line for the preprocessor, from its number sign to the end of the line.
  | instruction
  | literal
  | word (cs : List Char)
  | symbol (c : Char)
deriving DecidableEq, Inhabited

namespace Lexeme

/-- What may stand between two lexemes. -/
def isGap (c : Char) : Bool :=
  c == ' ' || c == '\t' || c == '\r' || c == '\n' || c == '\x0B' || c == '\x0C' || c == '\u00A0'
    || c == '\u3000' || c == byteOrderMark

def isBreak (c : Char) : Bool := c == '\n' || c == '\r'

/-- Letters, digits and all that is neither ASCII nor a gap. -/
def isWordChar (c : Char) : Bool :=
  c.isAlphanum || c == '_' || (0x80 ≤ c.toNat && !isGap c)

def runLength (p : Char → Bool) (cs : List Char) : Nat := (cs.takeWhile p).length

def lineLength (cs : List Char) : Nat := runLength (!isBreak ·) cs

/-- How far a block comment reaches behind its opening; `none` if nothing closes it. -/
def blockLength? : List Char → Option Nat
  | '*' :: '/' :: _ => some 2
  | _ :: rest => (blockLength? rest).map (· + 1)
  | [] => none

/-! ### Literals

A length counts what follows the opening quote, the closing quote included. -/

def quoteMark : Char := '\x22'

/-- A literal with escapes ends at its quote, or else before the end of the line. -/
def quotedLength (quote : Char) : List Char → Nat
  | [] => 0
  | ['\\'] => 1
  | '\\' :: _ :: rest => quotedLength quote rest + 2
  | c :: rest =>
      if c = quote then 1 else if isBreak c then 0 else quotedLength quote rest + 1

/-- A verbatim literal, in which two quotes stand for one. -/
def verbatimLength : List Char → Nat
  | [] => 0
  | '\x22' :: '\x22' :: rest => verbatimLength rest + 2
  | '\x22' :: _ => 1
  | _ :: rest => verbatimLength rest + 1

/-- A raw literal ends at the first run of as many quotes as opened it. -/
def rawLength (quotes : Nat) : List Char → Nat
  | [] => 0
  | c :: rest =>
      let run := runLength (· == quoteMark) (c :: rest)
      if quotes ≤ run then run else rawLength quotes rest + 1

def isMark (c : Char) : Bool := c == '$' || c == '@'

/-- The literal that a text starts with, its marks and its opening quotes included. How far an
interpolated one reaches is given: code may stand in it, with literals of its own. -/
def literalWith (interpolated : Bool → List Char → Nat) (cs : List Char) : Option Nat :=
  let marks := cs.takeWhile isMark
  let behind := cs.drop marks.length
  let quotes := runLength (· == quoteMark) behind
  let verbatim := marks.contains '@'
  let opened (n length : Nat) : Option Nat := some (marks.length + n + length)
  if quotes = 0 then none
  else if 3 ≤ quotes && !verbatim then opened quotes (rawLength quotes (behind.drop quotes))
  else if marks.contains '$' then opened 1 (interpolated verbatim (behind.drop 1))
  else if verbatim then opened 1 (verbatimLength (behind.drop 1))
  else opened 1 (quotedLength quoteMark (behind.drop 1))

-- `depth` counts the open braces of the code in the literal; the fuel is the length of the text.
def interpolatedFrom : Nat → Nat → Bool → List Char → Nat
  | 0, _, _, _ => 0
  | _, _, _, [] => 0
  | fuel + 1, depth, verbatim, c :: rest =>
      let skip (n depth : Nat) : Nat :=
        n + interpolatedFrom fuel depth verbatim ((c :: rest).drop n)
      let doubled := rest.head? = some c
      if depth = 0 then
        if c = '\x7b' then if doubled then skip 2 0 else skip 1 1
        else if c = '\\' && !verbatim then skip (min 2 (rest.length + 1)) 0
        else if c = quoteMark then if verbatim && doubled then skip 2 0 else 1
        else if isBreak c && !verbatim then 0
        else skip 1 0
      else if c = '\x7b' then skip 1 (depth + 1)
      else if c = '\x7d' then skip 1 (depth - 1)
      else
        match literalWith (interpolatedFrom fuel 0) (c :: rest) with
        | some n => skip n depth
        | none => skip 1 depth

def literalLength? (cs : List Char) : Option Nat :=
  literalWith (interpolatedFrom cs.length 0) cs

/-- A character in single quotes. -/
def characterLength? : List Char → Option Nat
  | '\'' :: '\\' :: rest =>
      let length := quotedLength '\'' ('\\' :: rest)
      if (('\\' :: rest).take length).getLast? = some '\'' then some (length + 1) else none
  | '\'' :: _ :: '\'' :: _ => some 3
  | _ => none

/-- The first lexeme of a text and its length. -/
def first (c : Char) (rest : List Char) : Lexeme × Nat :=
  let cs := c :: rest
  let wordAt (n : Nat) : Lexeme × Nat :=
    let length := n + runLength isWordChar (cs.drop n)
    (.word (cs.take length), length)
  if isGap c then (.gap, runLength isGap cs)
  else if c = '#' then (.instruction, lineLength cs)
  else if "//".toList.isPrefixOf cs then (.comment, lineLength cs)
  else
    match (if "/*".toList.isPrefixOf cs then blockLength? (cs.drop 2) else none) with
    | some n => (.comment, n + 2)
    | none =>
        match (literalLength? cs).or (characterLength? cs) with
        | some n => (.literal, n)
        | none =>
            if isWordChar c then wordAt 0
            else if c = '@' && (rest.head?.map isWordChar).getD false then wordAt 1
            else (.symbol c, 1)

-- `fuel` is the length of what is left; a lexeme takes one character at least.
def allFrom : Nat → Nat → List Char → List (Lexeme × Range)
  | 0, _, _ => []
  | _, _, [] => []
  | fuel + 1, place, c :: rest =>
      let (lexeme, length) := first c rest
      let length := max length 1
      (lexeme, ⟨place, place + length⟩) :: allFrom fuel (place + length) ((c :: rest).drop length)

/-- The lexemes of a text with their places. -/
def all (cs : List Char) : List (Lexeme × Range) := allFrom cs.length 0 cs

end Lexeme
end InlineProject.Source
