import InlineProject.Yaml.Token.Mark
import InlineProject.Yaml.Token.Scalar
/-!
From the text of a document to its tokens. A mapping key without a mark is recognised only at the
colon behind it, so the place before each possible key is kept until the colon comes or cannot come
any more; then the tokens of the mapping are put in front of the key.
-/

namespace InlineProject.Yaml

/-- A place where a key may turn out to have started. -/
structure PossibleKey where
  -- How many tokens stand before it.
  position : Nat
  -- In a block mapping at this column nothing but a key can stand here.
  required : Bool
  index : Nat
  line : Nat
  column : Nat

structure Scanner where
  cursor : Cursor
  tokens : Array Token
  flowLevel : Nat
  indent : Int
  outerIndents : List Int
  keyAllowed : Bool
  -- At most one possible key for each level of brackets.
  possibleKeys : List (Nat × PossibleKey)

/-- What a text consists of: its tokens, and what went wrong behind the last of them. -/
structure Tokens where
  tokens : List Token
  failure : Option Error

namespace Scanner

def start (cs : List Char) : Scanner := ⟨.start cs, #[], 0, -1, [], true, []⟩

def push (s : Scanner) (t : Token) : Scanner := { s with tokens := s.tokens.push t }

def key? (s : Scanner) : Option PossibleKey := s.possibleKeys.lookup s.flowLevel

def dropKey (s : Scanner) : Scanner :=
  { s with possibleKeys := s.possibleKeys.filter fun (level, _) => level != s.flowLevel }

/-- Gives up the possible key of this level; a required key may not be given up. -/
def removeKey (s : Scanner) : Except Error Scanner :=
  match s.key? with
  | some key => if key.required then .error .badToken else .ok s.dropKey
  | none => .ok s

/-- A key may have started here, if one is allowed. -/
def saveKey (s : Scanner) : Except Error Scanner :=
  if s.keyAllowed then do
    let s ← s.removeKey
    let required := s.flowLevel = 0 && s.indent = (s.cursor.column : Int)
    let key : PossibleKey :=
      ⟨s.tokens.size, required, s.cursor.index, s.cursor.line, s.cursor.column⟩
    return { s with possibleKeys := (s.flowLevel, key) :: s.possibleKeys }
  else .ok s

-- A key stands on one line and has at most 1024 characters.
def isStale (s : Scanner) (key : PossibleKey) : Bool :=
  key.line != s.cursor.line || 1024 < s.cursor.index - key.index

def removeStaleKeys (s : Scanner) : Except Error Scanner :=
  if s.possibleKeys.any fun (_, key) => s.isStale key && key.required then .error .badToken
  else .ok { s with possibleKeys := s.possibleKeys.filter fun (_, key) => !s.isStale key }

-- The fuel is the number of open indents.
def unwindFrom (column : Int) : Nat → Scanner → Scanner
  | 0, s => s
  | fuel + 1, s =>
      if s.indent ≤ column then s
      else
        unwindFrom column fuel
          { s.push .blockEnd with
            indent := s.outerIndents.headD (-1)
            outerIndents := s.outerIndents.tail }

/-- Closes the block collections that are indented further than a column. -/
def unwind (column : Int) (s : Scanner) : Scanner :=
  if s.flowLevel = 0 then unwindFrom column s.outerIndents.length s else s

/-- Opens an indentation, if the column is further than the current one. -/
def indentTo (column : Nat) (s : Scanner) : Option Scanner :=
  if s.indent < (column : Int) then
    some { s with indent := column, outerIndents := s.indent :: s.outerIndents }
  else none

def indentWith (t : Token) (s : Scanner) : Scanner :=
  match s.indentTo s.cursor.column with
  | some s => s.push t
  | none => s

def moveTo (c : Cursor) (s : Scanner) : Scanner := { s with cursor := c }

def allowKey (allowed : Bool) (s : Scanner) : Scanner := { s with keyAllowed := allowed }

-- Blanks, comments and line breaks; outside of brackets a new line may start a key.
def toNextTokenFrom : Nat → Scanner → Scanner
  | 0, s => s
  | fuel + 1, s =>
      let c := s.cursor.skipSpaces
      let c := if c.peek == some '#' then c.skipLine else c
      match c.lineBreak? with
      | some (_, c) =>
          toNextTokenFrom fuel
            { s with cursor := c, keyAllowed := s.keyAllowed || s.flowLevel == 0 }
      | none => s.moveTo c

def toNextToken (s : Scanner) : Scanner :=
  let c := s.cursor
  let c := if c.index = 0 && c.peek == some '\uFEFF' then c.advance else c
  toNextTokenFrom (c.rest.length + 1) (s.moveTo c)

/-! ### One token -/

def finish (s : Scanner) : Except Error Scanner := do
  let s ← (s.unwind (-1)).removeKey
  return { s with keyAllowed := false, possibleKeys := [] }

def fetchDirective (s : Scanner) : Except Error Scanner := do
  let s ← (s.unwind (-1)).removeKey
  let (t, c) ← directive s.cursor.advance
  return ((s.allowKey false).push t).moveTo c

def fetchSeparator (t : Token) (s : Scanner) : Except Error Scanner := do
  let s ← (s.unwind (-1)).removeKey
  return ((s.allowKey false).push t).moveTo (s.cursor.skip 3)

def fetchFlowStart (t : Token) (s : Scanner) : Except Error Scanner := do
  let s ← s.saveKey
  return { s.push t with
    flowLevel := s.flowLevel + 1, keyAllowed := true, cursor := s.cursor.advance }

def fetchFlowEnd (t : Token) (s : Scanner) : Except Error Scanner := do
  let s ← s.removeKey
  return { s.push t with
    flowLevel := s.flowLevel - 1, keyAllowed := false, cursor := s.cursor.advance }

def fetchFlowEntry (s : Scanner) : Except Error Scanner := do
  let s ← (s.allowKey true).removeKey
  return (s.push .flowEntry).moveTo s.cursor.advance

def fetchBlockEntry (s : Scanner) : Except Error Scanner := do
  if s.flowLevel = 0 && !s.keyAllowed then throw .badToken
  let s := if s.flowLevel = 0 then s.indentWith .blockSequenceStart else s
  let s ← (s.allowKey true).removeKey
  return (s.push .blockEntry).moveTo s.cursor.advance

def fetchKey (s : Scanner) : Except Error Scanner := do
  if s.flowLevel = 0 && !s.keyAllowed then throw .badToken
  let s := if s.flowLevel = 0 then s.indentWith .blockMappingStart else s
  let s ← (s.allowKey (s.flowLevel == 0)).removeKey
  return (s.push .key).moveTo s.cursor.advance

/-- Puts the tokens of a mapping in front of a key that has turned out to be one. -/
def insertKey (key : PossibleKey) (s : Scanner) : Scanner :=
  let s := { s.dropKey with tokens := s.tokens.insertIdxIfInBounds key.position .key }
  let s :=
    if s.flowLevel = 0 then
      match s.indentTo key.column with
      | some s =>
          { s with tokens := s.tokens.insertIdxIfInBounds key.position .blockMappingStart }
      | none => s
    else s
  s.allowKey false

def fetchValue (s : Scanner) : Except Error Scanner := do
  let s ← match s.key? with
    | some key => pure (s.insertKey key)
    | none => do
        if s.flowLevel = 0 && !s.keyAllowed then throw .badToken
        let s := if s.flowLevel = 0 then s.indentWith .blockMappingStart else s
        (s.allowKey (s.flowLevel == 0)).removeKey
  return (s.push .value).moveTo s.cursor.advance

def fetchAnchor (mark : String → Token) (s : Scanner) : Except Error Scanner := do
  let s ← s.saveKey
  let (name, c) ← anchorName s.cursor.advance
  return ((s.allowKey false).push (mark name)).moveTo c

def fetchTag (s : Scanner) : Except Error Scanner := do
  let s ← s.saveKey
  let (t, c) ← tagToken s.cursor
  return ((s.allowKey false).push t).moveTo c

def fetchBlockScalar (folded : Bool) (s : Scanner) : Except Error Scanner := do
  let s ← (s.allowKey true).removeKey
  let (t, c) ← blockScalar folded s.indent s.cursor.advance
  return (s.push (.scalar t false)).moveTo c

def fetchQuoted (double : Bool) (s : Scanner) : Except Error Scanner := do
  let s ← s.saveKey
  let (t, c) ← quotedScalar double s.cursor.advance
  return ((s.allowKey false).push (.scalar t false)).moveTo c

def fetchPlain (s : Scanner) : Except Error Scanner := do
  let s ← s.saveKey
  let p := plainScalar (s.flowLevel != 0) s.indent s.cursor
  return ((s.allowKey p.crossed).push (.scalar (Text.ofChars p.text) true)).moveTo p.cursor

/-- Whether a plain scalar can start here. -/
def startsPlain (s : Scanner) (ch : Char) : Bool :=
  let follows := !isGap (s.cursor.ahead 1)
  !(isGap (some ch) || "-?:,[]\x7b\x7d#&*!|>\x27\x22%@\x60".toList.contains ch)
    || (follows && (ch == '-' || (s.flowLevel == 0 && (ch == '?' || ch == ':'))))

/-- Whether a key mark or a colon counts here: always in brackets, else before a gap. -/
def marksPair (s : Scanner) : Bool := s.flowLevel != 0 || isGap (s.cursor.ahead 1)

/-- The token that starts with a character. -/
def fetch (ch : Char) (s : Scanner) : Except Error Scanner :=
  let atMargin := s.cursor.column == 0
  if ch == '%' && atMargin then s.fetchDirective
  else if ch == '-' && atMargin && s.cursor.atSeparator then s.fetchSeparator .documentStart
  else if ch == '.' && atMargin && s.cursor.atSeparator then s.fetchSeparator .documentEnd
  else if ch == '[' then s.fetchFlowStart .flowSequenceStart
  else if ch == '\x7b' then s.fetchFlowStart .flowMappingStart
  else if ch == ']' then s.fetchFlowEnd .flowSequenceEnd
  else if ch == '\x7d' then s.fetchFlowEnd .flowMappingEnd
  else if ch == ',' then s.fetchFlowEntry
  else if ch == '-' && isGap (s.cursor.ahead 1) then s.fetchBlockEntry
  else if ch == '?' && s.marksPair then s.fetchKey
  else if ch == ':' && s.marksPair then s.fetchValue
  else if ch == '*' then s.fetchAnchor .alias
  else if ch == '&' then s.fetchAnchor .anchor
  else if ch == '!' then s.fetchTag
  else if ch == '|' && s.flowLevel == 0 then s.fetchBlockScalar false
  else if ch == '>' && s.flowLevel == 0 then s.fetchBlockScalar true
  else if ch == '\x27' then s.fetchQuoted false
  else if ch == '\x22' then s.fetchQuoted true
  else if s.startsPlain ch then s.fetchPlain
  else .error .badToken

/-- Moves on to the next token and reads it; `none` at the end of the text. -/
def step (s : Scanner) : Except Error (Option Char × Scanner) := do
  let s ← s.toNextToken.removeStaleKeys
  let s := s.unwind s.cursor.column
  match s.cursor.peek with
  | none => return (none, ← s.finish)
  | some ch => return (some ch, ← s.fetch ch)

-- The tokens that are settled: those before the first possible key.
def settled (s : Scanner) : List Token :=
  let live := s.possibleKeys.filter fun (_, key) => !s.isStale key
  let first := live.foldl (fun n (_, key) => min n key.position) s.tokens.size
  s.tokens.toList.take first

-- Every token has a character or more, so the length of the text bounds the steps.
def run : Nat → Scanner → Tokens
  | 0, s => ⟨s.settled, some .badToken⟩
  | fuel + 1, s =>
      match s.step with
      | .error e => ⟨s.settled, some e⟩
      | .ok (none, s) => ⟨s.tokens.toList, none⟩
      | .ok (some _, s) => run fuel s

end Scanner

/-- The tokens of a text. -/
def Tokens.ofChars (cs : List Char) : Tokens := (Scanner.start cs).run (cs.length + 2)

end InlineProject.Yaml
