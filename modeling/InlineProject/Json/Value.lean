import InlineProject.Number.Binary64
/-!
Values of the data format: what a loaded document and a registry file consist of. The fields of an
object keep the order in which they came.
-/

namespace InlineProject

inductive Json where
  | null
  | bool (b : Bool)
  | int (i : Int)
  | real (x : Binary64)
  | str (t : Text)
  | arr (items : List Json)
  | obj (fields : List (Text × Json))
deriving Inhabited

namespace Json

def ofString (s : String) : Json := .str (Text.ofString s)

/-- Puts a field: a name that is there keeps its place and takes the new value. -/
def putField (name : Text) (value : Json) : List (Text × Json) → List (Text × Json)
  | [] => [(name, value)]
  | (other, old) :: rest =>
      if other = name then (name, value) :: rest else (other, old) :: putField name value rest

/-- Fields without repetition: of equal names the first gives the place and the last the value. -/
def distinctFields (fields : List (Text × Json)) : List (Text × Json) :=
  fields.foldl (fun kept (name, value) => putField name value kept) []

/-- The value of a field; `null` for what is no object or has no such field is not told apart. -/
def field? (j : Json) (name : String) : Option Json :=
  match j with
  | .obj fields => (fields.find? fun (other, _) => other = Text.ofString name).map (·.2)
  | _ => none

end Json
end InlineProject
