import InlineProject.Json.Printer
import InlineProject.Text.Replace
/-!
Attributes in a descriptor. Authors mark a name as an attribute by an underscore in front; in the
data that become the project an at sign marks it. The marks can be exchanged in the data or in the
text of the data; the latter also reaches values that start with an underscore.
-/

namespace InlineProject

/-- Where the marks of attributes are exchanged. -/
inductive MarkMode where
  | structured
  | text
deriving DecidableEq, Repr

namespace Attribute

def authorMark : CodePoint := .char '_'
def mark : CodePoint := .char '@'

/-- A name with the mark of the data where it had that of the author. -/
def exchangeName (name : Text) : Text :=
  match name with
  | first :: rest => if first = authorMark then mark :: rest else name
  | [] => []

mutual
/-- Exchanges the mark in the names of all fields, and nothing else. -/
def exchange : Json → Json
  | .obj fields => .obj (Json.distinctFields (exchangeFields fields))
  | .arr items => .arr (exchangeItems items)
  | j => j

def exchangeItems : List Json → List Json
  | [] => []
  | item :: rest => exchange item :: exchangeItems rest

def exchangeFields : List (Text × Json) → List (Text × Json)
  | [] => []
  | (name, value) :: rest => (exchangeName name, exchange value) :: exchangeFields rest
end

/-- Exchanges the mark wherever a quote stands before it. -/
def exchangeText (cs : List Char) : List Char := Replace.all ['\x22', '_'] ['\x22', '@'] cs

end Attribute
end InlineProject
