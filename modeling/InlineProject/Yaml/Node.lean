import InlineProject.Yaml.Tag
import InlineProject.Yaml.Token.Scan
/-!
The node graph of a document. Nodes refer to each other by number, so an alias is one more
reference to the node of its anchor, and a collection may contain itself.
-/

namespace InlineProject.Yaml

inductive Content where
  | scalar (text : Text)
  | sequence (items : List Nat)
  | mapping (entries : List (Nat × Nat))
deriving DecidableEq, Inhabited

structure Node where
  kind : Kind
  content : Content
deriving DecidableEq, Inhabited

structure Graph where
  nodes : Array Node
  -- An empty text has no document in it.
  root : Option Nat

/-! ### From tokens to nodes -/

structure Builder where
  nodes : Array Node
  anchors : List (String × Nat)
  handles : List (String × String)
  tokens : List Token
  failure : Option Error

abbrev Build (α : Type) := StateT Builder (Except Error) α

namespace Build

def defaultHandles : List (String × String) := [("!", "!"), ("!!", Kind.standardTag)]

def refuse {α : Type} (e : Error) : Build α := fun _ => .error e

/-- The next token; `none` at the end of the text. A text that could not be read further fails as
soon as its unread part matters. -/
def peek : Build (Option Token) := fun b =>
  match b.tokens, b.failure with
  | t :: _, _ => .ok (some t, b)
  | [], none => .ok (none, b)
  | [], some e => .error e

def drop : Build Unit := modify fun b => { b with tokens := b.tokens.tail }

def isNext (t : Token) : Build Bool := do return (← peek) == some t

/-- Passes a token if it is the next one. -/
def accept (t : Token) : Build Bool := do
  if ← isNext t then do
    drop
    return true
  else return false

def expect (t : Token) : Build Unit := do
  if !(← accept t) then refuse .badStructure

def addNode (n : Node) : Build Nat := fun b => .ok (b.nodes.size, { b with nodes := b.nodes.push n })

def setContent (id : Nat) (c : Content) : Build Unit :=
  modify fun b => { b with nodes := b.nodes.modify id fun n => { n with content := c } }

def nothing : Build Nat := addNode ⟨.null, .scalar []⟩

/-- Gives a node its anchor; an anchor names one node only. -/
def setAnchor (anchor : Option String) (id : Nat) : Build Unit :=
  match anchor with
  | none => pure ()
  | some name => modify fun b => { b with anchors := (name, id) :: b.anchors }

def aliased (name : String) : Build Nat := do
  match (← get).anchors.lookup name with
  | some id => return id
  | none => refuse .badAlias

/-- The tag that a handle and its suffix stand for. -/
def tagOf (handle : Option String) (suffix : String) : Build String := do
  match handle with
  | none => return suffix
  | some handle =>
      match (← get).handles.lookup handle with
      | some expansion => return expansion ++ suffix
      | none => refuse .badStructure

def anchor? : Build (Option String) := do
  match ← peek with
  | some (.anchor name) => do
      drop
      return some name
  | _ => return none

def tag? : Build (Option String) := do
  match ← peek with
  | some (.tag handle suffix) => do
      drop
      return some (← tagOf handle suffix)
  | _ => return none

/-- An anchor and a tag, in either order. -/
def properties : Build (Option String × Option String) := do
  match ← anchor? with
  | some name => return (some name, ← tag?)
  | none =>
      let tag ← tag?
      match tag with
      | some _ => return (← anchor?, tag)
      | none => return (none, none)

/-- The kind of a collection: that of its tag, or the usual one where the tag leaves it open. -/
def collectionKind (usual : Kind) (tag : Option String) : Kind :=
  match tag with
  | none => usual
  | some tag => if tag = "!" then usual else .ofTag tag

/-- The kind of a scalar: that of its tag, or what a plain text looks like. -/
def scalarKind (text : Text) (plain : Bool) (tag : Option String) : Kind :=
  match tag with
  | none => if plain then .ofPlain (Text.toCharsLossy text) else .str
  | some tag => if tag = "!" then .ofPlain (Text.toCharsLossy text) else .ofTag tag

/-- A collection: its node comes before those of its items, so that they can refer to it. -/
def collection (anchor : Option String) (kind : Kind) (content : Build Content) : Build Nat := do
  let id ← addNode ⟨kind, .sequence []⟩
  setAnchor anchor id
  setContent id (← content)
  return id

mutual
-- The fuel of all readers is the number of tokens, up to a factor: each call reads a token or is
-- the last one of a chain that does.
def node (block indentless : Bool) : Nat → Build Nat
  | 0 => refuse .badStructure
  | fuel + 1 => do
      match ← peek with
      | some (.alias name) => do
          drop
          aliased name
      | _ => do
          let (anchor, tag) ← properties
          let known := (← get).anchors
          if anchor.any fun name => (known.lookup name).isSome then refuse .badAlias
          let next ← peek
          match next with
          | some (.scalar text plain) => do
              drop
              let id ← addNode ⟨scalarKind text plain tag, .scalar text⟩
              setAnchor anchor id
              return id
          | some .flowSequenceStart => do
              drop
              collection anchor (collectionKind .seq tag) (return .sequence (← flowItems true fuel))
          | some .flowMappingStart => do
              drop
              collection anchor (collectionKind .map tag) (return .mapping (← flowPairs true fuel))
          | _ =>
              if indentless && next == some .blockEntry then
                collection anchor (collectionKind .seq tag) (return .sequence (← plainItems fuel))
              else if block && next == some .blockSequenceStart then do
                drop
                collection anchor (collectionKind .seq tag) (return .sequence (← blockItems fuel))
              else if block && next == some .blockMappingStart then do
                drop
                collection anchor (collectionKind .map tag) (return .mapping (← blockPairs fuel))
              else if anchor.isSome || tag.isSome then do
                let id ← addNode ⟨scalarKind [] true tag, .scalar []⟩
                setAnchor anchor id
                return id
              else refuse .badStructure

-- The items of a block sequence.
def blockItems : Nat → Build (List Nat)
  | 0 => refuse .badStructure
  | fuel + 1 => do
      if ← accept .blockEntry then do
        let next ← peek
        let first ←
          if next == some .blockEntry || next == some .blockEnd then nothing
          else node true false fuel
        return first :: (← blockItems fuel)
      else do
        expect .blockEnd
        return []

-- The items of a sequence that is indented no further than the mapping around it.
def plainItems : Nat → Build (List Nat)
  | 0 => refuse .badStructure
  | fuel + 1 => do
      if ← accept .blockEntry then do
        let next ← peek
        let first ←
          if next == some .blockEntry || next == some .key || next == some .value
              || next == some .blockEnd then nothing
          else node true false fuel
        return first :: (← plainItems fuel)
      else return []

-- A key or a value of a block mapping behind its mark.
def blockPart : Nat → Build Nat
  | 0 => refuse .badStructure
  | fuel + 1 => do
      let next ← peek
      if next == some .key || next == some .value || next == some .blockEnd then nothing
      else node true true fuel

def blockPairs : Nat → Build (List (Nat × Nat))
  | 0 => refuse .badStructure
  | fuel + 1 => do
      let next ← peek
      if next == some .blockEnd then do
        drop
        return []
      else if next == some .key || next == some .value then do
        let key ← if ← accept .key then blockPart fuel else refuse .badStructure
        let value ← if ← accept .value then blockPart fuel else nothing
        return (key, value) :: (← blockPairs fuel)
      else refuse .badStructure

-- A part of a pair in brackets; the pair ends at a comma or at the closing bracket.
def flowPart (stops : List Token) : Nat → Build Nat
  | 0 => refuse .badStructure
  | fuel + 1 => do
      match ← peek with
      | some t => if stops.contains t then nothing else node false false fuel
      | none => node false false fuel

def flowItems (first : Bool) : Nat → Build (List Nat)
  | 0 => refuse .badStructure
  | fuel + 1 => do
      if ← accept .flowSequenceEnd then return []
      else do
        if !first then expect .flowEntry
        if ← accept .key then do
          -- A single pair inside of a sequence is a mapping of its own.
          let id ← addNode ⟨.map, .sequence []⟩
          let key ← flowPart [.value, .flowEntry, .flowSequenceEnd] fuel
          let value ←
            if ← accept .value then flowPart [.flowEntry, .flowSequenceEnd] fuel else nothing
          setContent id (.mapping [(key, value)])
          return id :: (← flowItems false fuel)
        else if ← accept .flowSequenceEnd then return []
        else do
          let item ← node false false fuel
          return item :: (← flowItems false fuel)

def flowPairs (first : Bool) : Nat → Build (List (Nat × Nat))
  | 0 => refuse .badStructure
  | fuel + 1 => do
      if ← accept .flowMappingEnd then return []
      else do
        if !first then expect .flowEntry
        if ← accept .key then do
          let key ← flowPart [.value, .flowEntry, .flowMappingEnd] fuel
          let value ←
            if ← accept .value then flowPart [.flowEntry, .flowMappingEnd] fuel else nothing
          return (key, value) :: (← flowPairs false fuel)
        else if ← accept .flowMappingEnd then return []
        else do
          let key ← node false false fuel
          let value ← nothing
          return (key, value) :: (← flowPairs false fuel)
end

/-! ### Documents -/

-- Of a version only the major number has to be the one of the language.
def addDirective (versioned : Bool) : Directive → Build Bool
  | .version major _ => if versioned || major != 1 then refuse .badStructure else return true
  | .tag handle expansion => do
      if ((← get).handles.lookup handle).isSome then refuse .badStructure
      modify fun b => { b with handles := b.handles ++ [(handle, expansion)] }
      return versioned
  | .other => return versioned

def directives (versioned : Bool) : Nat → Build Unit
  | 0 => pure ()
  | fuel + 1 => do
      match ← peek with
      | some (.directive d) => do
          drop
          directives (← addDirective versioned d) fuel
      | _ => pure ()

-- Handles that no directive gives have their usual meaning.
def addDefaultHandles : Build Unit :=
  modify fun b => { b with handles := b.handles ++ defaultHandles }

def isDirective : Option Token → Bool
  | some (.directive _) => true
  | _ => false

/-- The content of a document behind its start mark, which may be missing altogether. -/
def explicitContent (fuel : Nat) : Build Nat := do
  let next ← peek
  if next.isNone || isDirective next || next == some .documentStart || next == some .documentEnd then
    nothing
  else node true false fuel

def skipEnds : Nat → Build Unit
  | 0 => pure ()
  | fuel + 1 => do
      if ← accept .documentEnd then skipEnds fuel

/-- The only document of a text. -/
def document (fuel : Nat) : Build (Option Nat) := do
  let next ← peek
  let root ←
    if next.isNone then pure none
    else if isDirective next || next == some .documentStart then do
      directives false fuel
      addDefaultHandles
      expect .documentStart
      pure (some (← explicitContent fuel))
    else do
      addDefaultHandles
      pure (some (← node true false fuel))
  skipEnds fuel
  if (← peek).isSome then refuse .badStructure
  return root

end Build

/-- The node graph of some tokens. -/
def Graph.ofTokens (ts : Tokens) : Except Error Graph := do
  let (root, b) ← (Build.document (4 * ts.tokens.length + 8)).run
    ⟨#[], [], [], ts.tokens, ts.failure⟩
  return ⟨b.nodes, root⟩

/-- The node graph of a text; no character may be one that documents cannot hold. -/
def Graph.ofChars (cs : List Char) : Except Error Graph :=
  match cs.find? (!isAllowed ·) with
  | some c => .error (.unprintable c)
  | none => Graph.ofTokens (Tokens.ofChars cs)

end InlineProject.Yaml
