import InlineProject.Yaml.Value
/-!
Showing values that no data format has a place for: sets and pairs, with all that pairs may hold. A
collection inside of itself is shown by dots.
-/

namespace InlineProject.Yaml.Loaded

/-- What is being shown around a value: a collection, or one pair of a list of pairs. -/
inductive Mark where
  | collection (id : Nat)
  | pair (id index : Nat)
deriving DecidableEq

def enclosed (opening closing : Char) (parts : List (List Char)) : List Char :=
  opening :: List.intercalate [',', ' '] parts ++ [closing]

def dots (opening closing : Char) : List Char := [opening, '.', '.', '.', closing]

/-- Members of a set: integers by size, all others as they came. -/
def setOrder (members : List Datum) : List Datum :=
  if members.all fun d => match d with | .int _ => true | _ => false then
    members.mergeSort fun a b => (a.integer?.getD 0) ≤ (b.integer?.getD 0)
  else members

def displaySet (members : List Datum) : Except NumberError (List Char) := do
  if members.isEmpty then return "set()".toList
  else return enclosed '\x7b' '\x7d' (← (setOrder members).mapM Datum.display)

-- Each step shows one more of the finitely many collections and pairs.
def display (l : Loaded) : Nat → List Mark → Nat → Except NumberError (List Char)
  | 0, _, _ => .ok []
  | fuel + 1, around, id =>
      let inside := Mark.collection id :: around
      let seen := around.contains (.collection id)
      match l.value? id with
      | none => .ok []
      | some (.datum d) => d.display
      | some (.set members) => displaySet members
      | some (.list items) =>
          if seen then .ok (dots '[' ']')
          else do return enclosed '[' ']' (← items.mapM (display l fuel inside))
      | some (.dict entries) =>
          if seen then .ok (dots '\x7b' '\x7d')
          else do
            let parts ← entries.mapM fun (key, value) => do
              let name ← key.display
              let shown ← display l fuel inside value
              return name ++ ':' :: ' ' :: shown
            return enclosed '\x7b' '\x7d' parts
      | some (.pairs items) =>
          if seen then .ok (dots '[' ']')
          else do
            let parts ← items.zipIdx.mapM fun ((first, second), index) => do
              if inside.contains (.pair id index) then return dots '(' ')'
              else
                let inside := Mark.pair id index :: inside
                return enclosed '(' ')'
                  [← display l fuel inside first, ← display l fuel inside second]
            return enclosed '[' ']' parts

def displayFuel (l : Loaded) : Nat :=
  l.values.foldl (fun fuel v => match v with
    | some (.pairs items) => fuel + items.length
    | _ => fuel) (l.values.size + 2)

/-- One pair of a list of pairs. -/
def displayPair (l : Loaded) (id index first second : Nat) : Except NumberError (List Char) := do
  let around := [Mark.pair id index]
  return enclosed '(' ')'
    [← l.display l.displayFuel around first, ← l.display l.displayFuel around second]

end InlineProject.Yaml.Loaded
