import InlineProject.Yaml.Token.Cursor
import InlineProject.Yaml.Token
/-!
The five ways to write a scalar: plain, in single or double quotes, and as a literal or folded
block. Each reader starts behind the mark of its kind and answers the text and the place behind it.
-/

namespace InlineProject.Yaml

open Cursor

/-! ### Blocks -/

/-- What happens to the line breaks at the end of a block. -/
inductive Chomping where
  | strip
  | clip
  | keep
deriving DecidableEq

structure BlockHeader where
  chomping : Chomping
  increment : Option Nat

def chompingOf? : Option Char → Option Chomping
  | some '+' => some .keep
  | some '-' => some .strip
  | _ => none

def digitOf? : Option Char → Option Nat
  | some c => if Digit.isAscii c then some (c.toNat - 48) else none
  | none => none

/-- The two indicators, each at most once and in either order; an increment is not zero. -/
def blockHeader (c : Cursor) : Except Error (BlockHeader × Cursor) := do
  let (header, c) ←
    match chompingOf? c.peek with
    | some chomping =>
        match digitOf? c.advance.peek with
        | some n => pure (BlockHeader.mk chomping (some n), c.skip 2)
        | none => pure (BlockHeader.mk chomping none, c.advance)
    | none =>
        match digitOf? c.peek with
        | some n =>
            match chompingOf? c.advance.peek with
            | some chomping => pure (BlockHeader.mk chomping (some n), c.skip 2)
            | none => pure (BlockHeader.mk .clip (some n), c.advance)
        | none => pure (BlockHeader.mk .clip none, c)
  if header.increment = some 0 || !isSpaceOrEnd c.peek then throw .badToken
  match c.finishLine? with
  | some c => return (header, c)
  | none => throw .badToken

-- The blank lines before the first line of text; their longest run of spaces is the indentation
-- that a block without an increment takes at least.
def leadingBlanks : Nat → Nat → Cursor → List Char × Nat × Cursor
  | 0, widest, c => ([], widest, c)
  | fuel + 1, widest, c =>
      match c.lineBreak? with
      | some (ch, c) =>
          let (breaks, widest, c) := leadingBlanks fuel widest c
          (ch :: breaks, widest, c)
      | none =>
          if c.peek == some ' ' then
            let c := c.advance
            leadingBlanks fuel (max widest c.column) c
          else ([], widest, c)

/-- Spaces up to a column, as far as there are any. -/
def skipIndent (indent : Nat) (c : Cursor) : Cursor :=
  c.skip (min (indent - c.column) (c.rest.takeWhile (· == ' ')).length)

/-- The line breaks of blank lines, with the indentation of the line behind them passed. -/
def blankLines (indent : Nat) : Nat → Cursor → List Char × Cursor
  | 0, c => ([], skipIndent indent c)
  | fuel + 1, c =>
      let c := skipIndent indent c
      match c.lineBreak? with
      | some (ch, c) =>
          let (breaks, c) := blankLines indent fuel c
          (ch :: breaks, c)
      | none => ([], c)

def startsMore (c : Cursor) : Bool := c.peek == some ' ' || c.peek == some '\t'

/-- The lines of a block, the last line break, and the blank lines behind it. -/
def blockLines (folded : Bool) (indent : Nat) : Nat → List Char → List Char → Cursor →
    List Char × List Char × List Char × Cursor
  | 0, lineBreak, breaks, c => ([], lineBreak, breaks, c)
  | fuel + 1, lineBreak, breaks, c =>
      if c.column = indent && c.peek.isSome then
        let more := startsMore c
        let (line, c) := c.span (!isBreak ·)
        let (here, c) := match c.lineBreak? with
          | some (ch, c) => ([ch], c)
          | none => ([], c)
        let (blank, c) := blankLines indent fuel c
        -- A single break between two lines that are not indented further is folded to a space.
        let folds := folded && here == ['\n'] && !more && !startsMore c
        let joint :=
          if c.column = indent && c.peek.isSome then
            if folds then (if blank.isEmpty then [' '] else []) else here
          else []
        let (text, lineBreak, trailing, c) := blockLines folded indent fuel here blank c
        (breaks ++ line ++ joint ++ text, lineBreak, trailing, c)
      else ([], lineBreak, breaks, c)

def chomped (chomping : Chomping) (lineBreak breaks : List Char) : List Char :=
  match chomping with
  | .strip => []
  | .clip => lineBreak
  | .keep => lineBreak ++ breaks

/-- A block scalar behind its mark; `indent` is the indentation of the collection around it. -/
def blockScalar (folded : Bool) (indent : Int) (c : Cursor) : Except Error (Text × Cursor) := do
  let (header, c) ← blockHeader c
  let least := (max 1 (indent + 1)).toNat
  let fuel := c.rest.length + 1
  let (breaks, width, c) := match header.increment with
    | none =>
        let (breaks, widest, c) := leadingBlanks fuel 0 c
        (breaks, max least widest, c)
    | some n =>
        let width := least + n - 1
        let (breaks, c) := blankLines width fuel c
        (breaks, width, c)
  let (text, lineBreak, trailing, c) := blockLines folded width fuel [] breaks c
  return (Text.ofChars (text ++ chomped header.chomping lineBreak trailing), c)

/-! ### Quotes -/

def namedEscape? (c : Char) : Option Char :=
  [('0', '\x00'), ('a', '\x07'), ('b', '\x08'), ('t', '\t'), ('\t', '\t'), ('n', '\n'),
   ('v', '\x0B'), ('f', '\x0C'), ('r', '\r'), ('e', '\x1B'), (' ', ' '), ('\x22', '\x22'),
   ('\\', '\\'), ('/', '/'), ('N', '\x85'), ('_', '\xA0'), ('L', '\u2028'),
   ('P', '\u2029')].lookup c

/-- How many hexadecimal digits follow the letter of a numbered escape. -/
def escapeWidth? (c : Char) : Option Nat := [('x', 2), ('u', 4), ('U', 8)].lookup c

def codePoint (n : Nat) : Except Error CodePoint :=
  match CodePoint.ofNat? n with
  | some p => .ok p
  | none => .error (if n < 0x80000000 then .codePointTooLarge else .codePointOverflow)

/-- The breaks of blank lines inside of quotes. A document separator may not stand there. -/
def quotedBreaks : Nat → Cursor → Except Error (List Char × Cursor)
  | 0, _ => .error .badToken
  | fuel + 1, c =>
      if c.atSeparator then .error .badToken
      else
        let c := c.skipWhile fun ch => ch == ' ' || ch == '\t'
        match c.lineBreak? with
        | some (ch, c) => do
            let (breaks, c) ← quotedBreaks fuel c
            return (ch :: breaks, c)
        | none => return ([], c)

def isQuotedWord (c : Char) : Bool :=
  !(c == '\x27' || c == '\x22' || c == '\\' || c == ' ' || c == '\t' || isBreak c)

/-- An escape behind its backslash. -/
def escape (fuel : Nat) (c : Cursor) : Except Error (Text × Cursor) :=
  match c.peek with
  | none => .error .badToken
  | some ch =>
      match namedEscape? ch with
      | some out => .ok ([.char out], c.advance)
      | none =>
          match escapeWidth? ch with
          | some width =>
              let c := c.advance
              let digits := c.rest.take width
              if digits.length = width && digits.all Digit.isHex then do
                let p ← codePoint (Digit.natOf 16 digits)
                return ([p], c.skip width)
              else .error .badToken
          | none =>
              if isBreak ch then do
                let (breaks, c) ← quotedBreaks fuel c.skipBreak
                return (Text.ofChars breaks, c)
              else .error .badToken

-- The text up to the next space, break or closing quote.
def quotedWord (double : Bool) : Nat → Cursor → Except Error (Text × Cursor)
  | 0, _ => .error .badToken
  | fuel + 1, c => do
      let (word, c) := c.span isQuotedWord
      let next (t : Text) (c : Cursor) : Except Error (Text × Cursor) := do
        let (more, c) ← quotedWord double fuel c
        return (Text.ofChars word ++ t ++ more, c)
      match c.peek with
      | some '\x27' =>
          if double then next [.char '\x27'] c.advance
          else if c.ahead 1 == some '\x27' then next [.char '\x27'] (c.skip 2)
          else return (Text.ofChars word, c)
      | some '\x22' =>
          if double then return (Text.ofChars word, c) else next [.char '\x22'] c.advance
      | some '\\' =>
          if double then do
            let (t, c) ← escape fuel c.advance
            next t c
          else next [.char '\\'] c.advance
      | _ => return (Text.ofChars word, c)

/-- Spaces inside of quotes: kept within a line, folded around a line break. -/
def quotedGap (fuel : Nat) (c : Cursor) : Except Error (Text × Cursor) := do
  let (spaces, c) := c.span fun ch => ch == ' ' || ch == '\t'
  if c.peek.isNone then throw .badToken
  match c.lineBreak? with
  | none => return (Text.ofChars spaces, c)
  | some (ch, c) =>
      let (breaks, c) ← quotedBreaks fuel c
      let joint := if ch != '\n' then [ch] else if breaks.isEmpty then [' '] else []
      return (Text.ofChars (joint ++ breaks), c)

-- The text behind an opening quote; the cursor stays on the closing one.
def quotedFrom (double : Bool) : Nat → Cursor → Except Error (Text × Cursor)
  | 0, _ => .error .badToken
  | fuel + 1, c => do
      let (word, c) ← quotedWord double fuel c
      if c.peek == some (if double then '\x22' else '\x27') then return (word, c)
      else do
        let (gap, c) ← quotedGap fuel c
        let (more, c) ← quotedFrom double fuel c
        return (word ++ gap ++ more, c)

/-- A quoted scalar behind its opening quote. -/
def quotedScalar (double : Bool) (c : Cursor) : Except Error (Text × Cursor) := do
  let (t, c) ← quotedFrom double (c.rest.length + 2) c
  return (t, c.advance)

/-! ### Plain scalars -/

-- How many characters of a plain scalar come next; inside of brackets more characters end it.
def plainLength (flow : Bool) : List Char → Nat
  | [] => 0
  | c :: rest =>
      if isGap (some c) then 0
      else if c == ':' && (isGap rest.head? || (flow && ",[]\x7b\x7d".toList.contains (rest.head?.getD ' '))) then 0
      else if flow && ",?[]\x7b\x7d".toList.contains c then 0
      else plainLength flow rest + 1

-- The blank lines inside of a plain scalar; a document separator ends the scalar and its gap.
def plainBreaks : Nat → Cursor → Option (List Char) × Cursor
  | 0, c => (some [], c)
  | fuel + 1, c =>
      let c := c.skipSpaces
      match c.lineBreak? with
      | none => (some [], c)
      | some (ch, c) =>
          if c.atSeparator then (none, c)
          else
            let (breaks, c) := plainBreaks fuel c
            (breaks.map (ch :: ·), c)

/-- What stands between two parts of a plain scalar, and whether a line break was passed. -/
structure PlainGap where
  text : List Char
  crossed : Bool
  cursor : Cursor

def plainGap (fuel : Nat) (c : Cursor) : PlainGap :=
  let (spaces, c) := c.span (· == ' ')
  match c.lineBreak? with
  | none => ⟨spaces, false, c⟩
  | some (ch, c) =>
      if c.atSeparator then ⟨[], true, c⟩
      else
        match plainBreaks fuel c with
        | (none, c) => ⟨[], true, c⟩
        | (some breaks, c) =>
            let joint := if ch != '\n' then [ch] else if breaks.isEmpty then [' '] else []
            ⟨joint ++ breaks, true, c⟩

/-- A plain scalar with its gaps, and whether its last gap crossed a line: then a key may follow. -/
structure PlainScalar where
  text : List Char
  crossed : Bool
  cursor : Cursor

-- `gap` is what was passed before this part, `indent` the least column of a continuation line.
def plainFrom (flow : Bool) (indent : Int) : Nat → List Char → Bool → Cursor → PlainScalar
  | 0, _, crossed, c => ⟨[], crossed, c⟩
  | fuel + 1, gap, crossed, c =>
      let n := plainLength flow c.rest
      if c.peek == some '#' || n = 0 then ⟨[], crossed, c⟩
      else
        let part := gap ++ c.rest.take n
        let next := plainGap fuel (c.skip n)
        if next.text.isEmpty || next.cursor.peek == some '#'
            || (!flow && (next.cursor.column : Int) < indent) then
          ⟨part, next.crossed, next.cursor⟩
        else
          let more := plainFrom flow indent fuel next.text next.crossed next.cursor
          ⟨part ++ more.text, more.crossed, more.cursor⟩

def plainScalar (flow : Bool) (indent : Int) (c : Cursor) : PlainScalar :=
  plainFrom flow (indent + 1) (c.rest.length + 1) [] false c

end InlineProject.Yaml
