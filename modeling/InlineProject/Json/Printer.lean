import InlineProject.Json.Value
import InlineProject.Number.Shortest
/-!
Writing values as text: on one line with a space after each comma and colon, or laid out over lines
with the fields sorted. Characters beyond ASCII are written as escapes of their UTF-16 units.
-/

namespace InlineProject.Json

def unitEscape (n : Nat) : List Char := '\\' :: 'u' :: Digit.padded 4 (Digit.ofNat 16 n)

/-- The UTF-16 units of a number: one, or a pair of surrogates beyond the first plane. -/
def units (n : Nat) : List Nat :=
  if n < 0x10000 then [n]
  else [0xD800 + (n - 0x10000) / 0x400, 0xDC00 + (n - 0x10000) % 0x400]

def escapedPoint (p : CodePoint) : List Char :=
  let n := p.toNat
  if n = 0x22 then ['\\', '\x22']
  else if n = 0x5C then ['\\', '\\']
  else if n = 0x0A then ['\\', 'n']
  else if n = 0x0D then ['\\', 'r']
  else if n = 0x09 then ['\\', 't']
  else if n = 0x0C then ['\\', 'f']
  else if n = 0x08 then ['\\', 'b']
  else if 0x20 ≤ n && n < 0x7F then [Char.ofNat n]
  else (units n).flatMap unitEscape

def quoted (t : Text) : List Char := '\x22' :: t.flatMap escapedPoint ++ ['\x22']

/-- How the numbers of the text are spelled that no digits can say. -/
def numberLayout : Shortest.Layout :=
  { Shortest.layout with nanText := "NaN", infinityText := "Infinity" }

def separated (items : List (List Char)) : List Char := List.intercalate [',', ' '] items

mutual
/-- The text of a value on one line. -/
def render : Json → Except NumberError (List Char)
  | .null => .ok "null".toList
  | .bool b => .ok (if b then "true".toList else "false".toList)
  | .int i => (Integer.write i).map String.toList
  | .real x => .ok (numberLayout.render x)
  | .str t => .ok (quoted t)
  | .arr items => do
      let parts ← renderItems items
      return '[' :: separated parts ++ [']']
  | .obj fields => do
      let parts ← renderFields fields
      return '\x7b' :: separated parts ++ ['\x7d']

def renderItems : List Json → Except NumberError (List (List Char))
  | [] => .ok []
  | item :: rest => do
      let part ← render item
      let parts ← renderItems rest
      return part :: parts

def renderFields : List (Text × Json) → Except NumberError (List (List Char))
  | [] => .ok []
  | (name, value) :: rest => do
      let part ← render value
      let parts ← renderFields rest
      return (quoted name ++ ':' :: ' ' :: part) :: parts
end

def renderString (j : Json) : Except NumberError String := (render j).map String.ofList

/-- The order of code points, by which fields are sorted. -/
def textBefore : Text → Text → Bool
  | [], _ => true
  | _ :: _, [] => false
  | a :: as, b :: bs =>
      if a.toNat < b.toNat then true else if b.toNat < a.toNat then false else textBefore as bs

def sortFields {α : Type} (fields : List (Text × α)) : List (Text × α) :=
  fields.mergeSort fun a b => textBefore a.1 b.1

/-- An object of texts laid out over lines, two spaces for each level; fields are sorted. -/
def layoutRecord (depth : Nat) (fields : List (Text × List Char)) : List Char :=
  if fields.isEmpty then ['\x7b', '\x7d']
  else
    let margin (n : Nat) := '\n' :: List.replicate (2 * n) ' '
    let parts := (sortFields fields).map fun (name, value) =>
      margin (depth + 1) ++ quoted name ++ ':' :: ' ' :: value
    '\x7b' :: List.intercalate [','] parts ++ margin depth ++ ['\x7d']

end InlineProject.Json
