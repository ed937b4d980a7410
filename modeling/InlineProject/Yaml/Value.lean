import InlineProject.Yaml.Datum
import InlineProject.Yaml.Node
/-!
The value graph of a document: what its nodes stand for. A collection refers to its items by the
number of their nodes, so sharing and cycles stay as they are in the node graph.
-/

namespace InlineProject.Yaml

inductive Value where
  | datum (d : Datum)
  | list (items : List Nat)
  | dict (entries : List (Datum × Nat))
  | set (members : List Datum)
  -- A list of pairs, which need not be distinct.
  | pairs (items : List (Nat × Nat))
deriving DecidableEq, Inhabited

/-- The values of the nodes that the root reaches. -/
structure Loaded where
  values : Array (Option Value)
  root : Option Nat

namespace Loaded

def value? (l : Loaded) (id : Nat) : Option Value := (l.values[id]?).join

/-- The value of the whole document; nothing at all is the value of an empty one. -/
def top (l : Loaded) : Value := (l.root.bind l.value?).getD (.datum .null)

end Loaded

/-- Puts an entry: a key that is there keeps its place and its form and takes the new value. -/
def putEntry {α : Type} (key : Datum) (value : α) : List (Datum × α) → List (Datum × α)
  | [] => [(key, value)]
  | (other, old) :: rest =>
      if other.sameKey key then (other, value) :: rest else (other, old) :: putEntry key value rest

/-! ### Merging

A mapping may take over the entries of others under a key of its own kind. They come in front, so
that the entries of the mapping itself have the last word. -/

abbrev Nodes := Array Node

def contentOf (nodes : Nodes) (id : Nat) : Option Content :=
  match nodes[id]? with
  | some n => some n.content
  | none => none

def entriesOf (nodes : Nodes) (id : Nat) : List (Nat × Nat) :=
  match contentOf nodes id with
  | some (.mapping entries) => entries
  | _ => []

def kindOf (nodes : Nodes) (id : Nat) : Kind := match nodes[id]? with
  | some n => n.kind
  | none => .null

def setEntries (id : Nat) (entries : List (Nat × Nat)) (nodes : Nodes) : Nodes :=
  nodes.modify id fun n => { n with content := .mapping entries }

-- A key that stands for the value of its mapping is a text where the mapping is one of entries.
def settleKey (nodes : Nodes) (entry : Nat × Nat) : Nodes :=
  if kindOf nodes entry.1 = .value then nodes.modify entry.1 fun n => { n with kind := .str }
  else nodes

/-- The first entry that merges, with the entries before and behind it. -/
def splitMerge (nodes : Nodes) : List (Nat × Nat) → Option (List (Nat × Nat) × Nat × List (Nat × Nat))
  | [] => none
  | entry :: rest =>
      if kindOf nodes entry.1 = .merge then some ([], entry.2, rest)
      else (splitMerge nodes rest).map fun (before, source, after) => (entry :: before, source, after)

mutual
-- Every step removes an entry that merges, and none is ever added.
def flatten : Nat → Nat → Nodes → Except Error Nodes
  | 0, _, nodes => .ok nodes
  | fuel + 1, id, nodes => do
      let (merged, nodes) ← mergeAll fuel id [] nodes
      let nodes := (entriesOf nodes id).foldl settleKey nodes
      return setEntries id (merged ++ entriesOf nodes id) nodes

def mergeAll : Nat → Nat → List (Nat × Nat) → Nodes → Except Error (List (Nat × Nat) × Nodes)
  | 0, _, merged, nodes => .ok (merged, nodes)
  | fuel + 1, id, merged, nodes =>
      match splitMerge nodes (entriesOf nodes id) with
      | none => .ok (merged, nodes)
      | some (before, source, after) => do
          let nodes := setEntries id (before ++ after) nodes
          match contentOf nodes source with
          | some (.mapping _) => do
              let nodes ← flatten fuel source nodes
              mergeAll fuel id (merged ++ entriesOf nodes source) nodes
          | some (.sequence items) => do
              let (parts, nodes) ← mergeItems fuel items nodes
              -- Of several mappings the first one has the last word.
              mergeAll fuel id (merged ++ parts.reverse.flatten) nodes
          | _ => throw .badMerge

def mergeItems : Nat → List Nat → Nodes → Except Error (List (List (Nat × Nat)) × Nodes)
  | _, [], nodes => .ok ([], nodes)
  | 0, _ :: _, nodes => .ok ([], nodes)
  | fuel + 1, item :: rest, nodes =>
      match contentOf nodes item with
      | some (.mapping _) => do
          let nodes ← flatten fuel item nodes
          let part := entriesOf nodes item
          let (parts, nodes) ← mergeItems fuel rest nodes
          return (part :: parts, nodes)
      | _ => .error .badMerge
end

/-! ### From nodes to values

The values are built level by level. A collection gets its value at once, still empty, and waits
in a queue to be filled; so a cycle meets a value that is already there. -/

structure Loader where
  nodes : Nodes
  values : Array (Option Value)
  -- The collections that wait to be filled, in order.
  waiting : List Nat

abbrev Load (α : Type) := StateT Loader (Except Error) α

namespace Load

def refuse {α : Type} (e : Error) : Load α := fun _ => .error e

def setValue (id : Nat) (v : Value) : Load Unit :=
  modify fun l => { l with values := l.values.setIfInBounds id (some v) }

def startWith (id : Nat) (v : Value) : Load Value := do
  setValue id v
  modify fun l => { l with waiting := l.waiting ++ [id] }
  return v

/-- The text of a scalar; a mapping may name one under the key for its value. -/
def textOf (nodes : Nodes) : Nat → Nat → Except Error Text
  | 0, _ => .error .wrongShape
  | fuel + 1, id =>
      match contentOf nodes id with
      | some (.scalar text) => .ok text
      | some (.mapping entries) =>
          match entries.find? fun (key, _) => kindOf nodes key = .value with
          | some (_, value) => textOf nodes fuel value
          | none => .error .wrongShape
      | _ => .error .wrongShape

/-- A timestamp is read from a scalar only. -/
def isScalar (nodes : Nodes) (id : Nat) : Bool :=
  match contentOf nodes id with
  | some (.scalar _) => true
  | _ => false

/-- The value of a node, made when it is asked for the first time. -/
def value (id : Nat) : Load Value := do
  let l ← get
  match (l.values[id]?).join with
  | some v => return v
  | none =>
      match kindOf l.nodes id with
      | .seq => startWith id (.list [])
      | .map => startWith id (.dict [])
      | .set => startWith id (.set [])
      | .omap | .pairs => startWith id (.pairs [])
      | .merge => refuse (.unknownTag "merge")
      | .value => refuse (.unknownTag "value")
      | .unknown tag => refuse (.unknownTag tag)
      | kind =>
          match textOf l.nodes (l.nodes.size + 1) id with
          | .error e => refuse e
          | .ok text =>
              if kind = .timestamp && !isScalar l.nodes id then refuse .timestampOfCollection
              else
                match Datum.read? kind text with
                | some (.ok d) => do
                    setValue id (.datum d)
                    return .datum d
                | some (.error e) => refuse e
                | none => refuse .wrongShape

def values : List Nat → Load Unit
  | [] => pure ()
  | id :: rest => do
      let _ ← value id
      values rest

/-- The datum of a key; collections are no keys. -/
def key (id : Nat) : Load Datum := do
  match ← value id with
  | .datum d => return d
  | _ => refuse .unhashableKey

/-- The entries of a mapping; of keys that are the same the last one counts. -/
def entries : List (Nat × Nat) → List (Datum × Nat) → Load (List (Datum × Nat))
  | [], done => return done
  | (k, v) :: rest, done => do
      let k ← key k
      let _ ← value v
      entries rest (putEntry k v done)

-- The square of the number of references between nodes bounds the work of merging.
def mergeFuel (nodes : Nodes) : Nat :=
  let references := nodes.foldl (fun count n => match n.content with
    | .mapping entries => count + entries.length + 1
    | .sequence items => count + items.length + 1
    | .scalar _ => count + 1) 0
  (references + 2) * (references + 2)

def flatEntries (id : Nat) : Load (List (Datum × Nat)) := do
  let l ← get
  match contentOf l.nodes id with
  | some (.mapping _) =>
      match flatten (mergeFuel l.nodes) id l.nodes with
      | .error e => refuse e
      | .ok nodes => do
          set { l with nodes := nodes }
          entries (entriesOf nodes id) []
  | _ => refuse .wrongShape

/-- The pairs of a sequence, each given by a mapping of one entry. -/
def pairs : List Nat → Load (List (Nat × Nat))
  | [] => return []
  | item :: rest => do
      match contentOf (← get).nodes item with
      | some (.mapping [(k, v)]) => do
          let _ ← value k
          let _ ← value v
          return (k, v) :: (← pairs rest)
      | _ => refuse .wrongShape

/-- Fills a collection that has been waiting. -/
def fill (id : Nat) : Load Unit := do
  let l ← get
  match kindOf l.nodes id with
  | .seq =>
      match contentOf l.nodes id with
      | some (.sequence items) => do
          values items
          setValue id (.list items)
      | _ => refuse .wrongShape
  | .map => do setValue id (.dict (← flatEntries id))
  | .set => do setValue id (.set ((← flatEntries id).map (·.1)))
  | _ =>
      match contentOf l.nodes id with
      | some (.sequence items) => do setValue id (.pairs (← pairs items))
      | _ => refuse .wrongShape

-- Each node waits once, so the number of nodes is fuel enough.
def fillAll : Nat → Load Unit
  | 0 => pure ()
  | fuel + 1 => do
      match (← get).waiting with
      | [] => pure ()
      | id :: rest => do
          modify fun l => { l with waiting := rest }
          fill id
          fillAll fuel

end Load

def Loaded.ofGraph (g : Graph) : Except Error Loaded :=
  match g.root with
  | none => .ok ⟨#[], none⟩
  | some root => do
      let start : Loader := ⟨g.nodes, Array.replicate g.nodes.size none, []⟩
      let load : Load Unit := do
        let _ ← Load.value root
        Load.fillAll (g.nodes.size + 1)
      let (_, l) ← load.run start
      return ⟨l.values, some root⟩

/-- The values of the document that a text is. -/
def load (cs : List Char) : Except Error Loaded := do
  Loaded.ofGraph (← Graph.ofChars cs)

end InlineProject.Yaml
