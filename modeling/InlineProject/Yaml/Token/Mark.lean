import InlineProject.Text.Utf8
import InlineProject.Yaml.Token.Cursor
import InlineProject.Yaml.Token
/-!
The small tokens: directives, anchors, aliases and tags.
-/

namespace InlineProject.Yaml

open Cursor

def name? (c : Cursor) : Except Error (String × Cursor) :=
  let (word, c) := c.span isWordChar
  if word.isEmpty then .error .badToken else .ok (String.ofList word, c)

/-- The name of an anchor or an alias behind its mark. -/
def anchorName (c : Cursor) : Except Error (String × Cursor) := do
  let (name, c) ← name? c
  match c.peek with
  | none => return (name, c)
  | some ch =>
      if isGap (some ch) || "?:,]\x7d%@\x60".toList.contains ch then return (name, c)
      else throw .badToken

/-! ### Tags -/

def isTagChar (c : Char) : Bool := isWordChar c || ";/?:@&=+$,_.!~*\x27()[]".toList.contains c

-- Bytes given by number, as many as follow each other.
def byteEscapes : Nat → Cursor → Except Error (List UInt8 × Cursor)
  | 0, c => .ok ([], c)
  | fuel + 1, c =>
      if c.peek == some '%' then
        let digits := c.advance.rest.take 2
        if digits.length = 2 && digits.all Digit.isHex then do
          let (bytes, c) ← byteEscapes fuel (c.skip 3)
          return ((Digit.natOf 16 digits).toUInt8 :: bytes, c)
        else .error .badToken
      else .ok ([], c)

def tagTextFrom : Nat → Cursor → Except Error (String × Cursor)
  | 0, c => .ok ("", c)
  | fuel + 1, c => do
      let (word, c) := c.span isTagChar
      if c.peek == some '%' then
        let (bytes, c) ← byteEscapes fuel c
        match Utf8.decode (ByteArray.mk bytes.toArray) with
        | .ok s =>
            let (more, c) ← tagTextFrom fuel c
            return (String.ofList word ++ s ++ more, c)
        | .error _ => throw .badToken
      else return (String.ofList word, c)

/-- The characters of a tag; bytes given by number have to be UTF-8. -/
def tagText (c : Cursor) : Except Error (String × Cursor) := do
  let (t, after) ← tagTextFrom (c.rest.length + 1) c
  if after.index = c.index then throw .badToken
  return (t, after)

/-- A tag handle: a mark alone before a space, or a word between two marks. -/
def tagHandle (c : Cursor) : Except Error (String × Cursor) :=
  if c.peek != some '!' then .error .badToken
  else
    let (word, after) := c.advance.span isWordChar
    if word.isEmpty && after.peek == some ' ' then .ok ("!", after)
    else if after.peek == some '!' then
      .ok (String.ofList ('!' :: word ++ ['!']), after.advance)
    else .error .badToken

/-- Whether the tag that starts here has a handle of its own: a second mark before a space. -/
def hasHandle (c : Cursor) : Bool :=
  (c.advance.rest.takeWhile fun ch => !isSpaceOrEnd (some ch)).contains '!'

def tagToken (c : Cursor) : Except Error (Token × Cursor) := do
  let (token, c) ←
    if c.ahead 1 == some '<' then do
      let (suffix, c) ← tagText (c.skip 2)
      if c.peek != some '>' then throw .badToken
      pure (Token.tag none suffix, c.advance)
    else if isGap (c.ahead 1) then pure (Token.tag none "!", c.advance)
    else if hasHandle c then do
      let (handle, c) ← tagHandle c
      let (suffix, c) ← tagText c
      pure (Token.tag (some handle) suffix, c)
    else do
      let (suffix, c) ← tagText c.advance
      pure (Token.tag (some "!") suffix, c)
  if isSpaceOrEnd c.peek then return (token, c) else throw .badToken

/-! ### Directives -/

def digits (c : Cursor) : Except Error (Nat × Cursor) :=
  let (run, c) := c.span Digit.isAscii
  if run.isEmpty then .error .badToken else .ok (Digit.natOf 10 run, c)

def versionDirective (c : Cursor) : Except Error (Directive × Cursor) := do
  let (major, c) ← digits c.skipSpaces
  if c.peek != some '.' then throw .badToken
  let (minor, c) ← digits c.advance
  if isSpaceOrEnd c.peek then return (.version major minor, c) else throw .badToken

def tagDirective (c : Cursor) : Except Error (Directive × Cursor) := do
  let (handle, c) ← tagHandle c.skipSpaces
  if c.peek != some ' ' then throw .badToken
  let (expansion, c) ← tagText c.skipSpaces
  if isSpaceOrEnd c.peek then return (.tag handle expansion, c) else throw .badToken

/-- A directive behind its mark, with its line. -/
def directive (c : Cursor) : Except Error (Token × Cursor) := do
  let (name, c) ← name? c
  if !isSpaceOrEnd c.peek then throw .badToken
  let (d, c) ←
    if name = "YAML" then versionDirective c
    else if name = "TAG" then tagDirective c
    else pure (.other, c.skipLine)
  match c.finishLine? with
  | some c => return (.directive d, c)
  | none => throw .badToken

end InlineProject.Yaml
