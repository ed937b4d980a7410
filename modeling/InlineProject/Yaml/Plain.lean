import InlineProject.Json.Value
import InlineProject.Yaml.Display
/-!
The plain form of a document: keys become texts, dates and bytes too, sharing is written out. Main
statement of the design: only a collection inside of itself has no plain form.
-/

namespace InlineProject.Yaml

inductive PlainError where
  | circular
  | number (e : NumberError)
deriving DecidableEq

def PlainError.message : PlainError → String
  | .circular => "Circular reference in descriptor"
  | .number e => e.message

namespace Datum

/-- The name of a field: the words of the data format for truth values and nothing. -/
def fieldName : Datum → Except NumberError Text
  | .bool b => .ok (Text.ofString (if b then "true" else "false"))
  | .null => .ok (Text.ofString "null")
  | d => d.asText

def toJson : Datum → Except NumberError Json
  | .null => .ok .null
  | .bool b => .ok (.bool b)
  | .int i => .ok (.int i)
  | .real x => .ok (.real x)
  | d => d.asText.map .str

end Datum

namespace Loaded

def liftNumber {α : Type} (r : Except NumberError α) : Except PlainError α := r.mapError .number

-- `around` holds the collections around a value. None of them is in the list twice, so the number
-- of values is fuel enough.
def toJsonFrom (l : Loaded) : Nat → List Nat → Nat → Except PlainError Json
  | 0, _, _ => .error .circular
  | fuel + 1, around, id =>
      let inside := id :: around
      match l.value? id with
      | none => .ok .null
      | some (.datum d) => liftNumber d.toJson
      | some (.set members) => do
          return .str (Text.ofChars (← liftNumber (displaySet members)))
      | some (.list items) =>
          if around.contains id then .error .circular
          else do return .arr (← items.mapM (toJsonFrom l fuel inside))
      | some (.dict entries) =>
          if around.contains id then .error .circular
          else do
            let fields ← entries.mapM fun (key, value) => do
              let name ← liftNumber key.fieldName
              return (name, ← toJsonFrom l fuel inside value)
            return .obj (Json.distinctFields fields)
      | some (.pairs items) =>
          if around.contains id then .error .circular
          else do
            let shown ← items.zipIdx.mapM fun ((first, second), index) =>
              liftNumber (l.displayPair id index first second)
            return .arr (shown.map fun cs => .str (Text.ofChars cs))

/-- The plain form of a document. -/
def toJson (l : Loaded) : Except PlainError Json :=
  match l.root with
  | none => .ok .null
  | some root => l.toJsonFrom (l.values.size + 1) [] root

end Loaded
end InlineProject.Yaml
