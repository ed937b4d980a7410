import InlineProject.Yaml.Value
/-!
Looking values up in a document by the names of its fields.
-/

namespace InlineProject.Yaml

namespace Datum

/-- Nothing, untruth, zero, and what is empty. -/
def isVoid : Datum → Bool
  | .null => true
  | .bool b => !b
  | .int i => i = 0
  | .real x => x.toInt? = some 0
  | .text t => t.isEmpty
  | .bytes bs => bs.isEmpty
  | .date _ | .dateTime _ => false

end Datum

namespace Value

def isVoid : Value → Bool
  | .datum d => d.isVoid
  | .list items => items.isEmpty
  | .dict entries => entries.isEmpty
  | .set members => members.isEmpty
  | .pairs items => items.isEmpty

def isDict : Value → Bool
  | .dict _ => true
  | _ => false

end Value

namespace Loaded

/-- The value under a name, if a value is a mapping that has the name. -/
def field? (l : Loaded) (v : Value) (name : String) : Option Value :=
  match v with
  | .dict entries =>
      match entries.find? fun (key, _) => key.sameKey (.text (Text.ofString name)) with
      | some (_, id) => l.value? id
      | none => none
  | _ => none

end Loaded
end InlineProject.Yaml
