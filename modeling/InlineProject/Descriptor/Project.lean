import InlineProject.Json.Printer
import InlineProject.Xml.Canonical
import InlineProject.Xml.Parser
/-!
From data to project markup. A field becomes a child element, an attribute or the text of its
element; a list repeats its field. The result is written and read again, so a name that the markup
language does not allow makes no project.
-/

namespace InlineProject.Project

/-- The name of the root of every project. -/
def rootLabel : String := "Project"

/-- The field that gives an element its text. -/
def textField : Text := Text.ofString "#text"

inductive Error where
  | number (e : NumberError)
  -- A name that opens a namespace in braces and does not close it.
  | unclosedSpace
  -- A text with half of a surrogate pair cannot be written.
  | unpairedHalf
deriving DecidableEq

def Error.message : Error → String
  | .number e => e.message
  | .unclosedSpace => "not enough values to unpack (expected 2, got 1)"
  | .unpairedHalf => "surrogates not allowed"

/-- An element whose names are not checked yet. -/
inductive Draft where
  | element (name : Text) (attributes : List (Text × Text)) (text : Text) (children : List Draft)
deriving Inhabited

namespace Draft

def empty (name : Text) : Draft := .element name [] [] []

def withText (text : Text) : Draft → Draft
  | .element name attributes _ children => .element name attributes text children

/-- A repeated attribute keeps its place and takes the new value. -/
def putAttribute (key value : Text) : List (Text × Text) → List (Text × Text)
  | [] => [(key, value)]
  | (other, old) :: rest =>
      if other = key then (key, value) :: rest else (other, old) :: putAttribute key value rest

def withAttribute (key value : Text) : Draft → Draft
  | .element name attributes text children =>
      .element name (putAttribute key value attributes) text children

def withChild (parent child : Draft) : Draft :=
  match parent with
  | .element name attributes text children => .element name attributes text (children ++ [child])

end Draft

/-- A value as the text of an element or an attribute; collections are written as data. -/
def scalarText (j : Json) : Except NumberError Text :=
  match j with
  | .null => .ok []
  | .bool b => .ok (Text.ofString (if b then "true" else "false"))
  | .int i => (Integer.write i).map Text.ofString
  | .real x => .ok (Text.ofString x.text)
  | .str t => .ok t
  | j => j.render.map Text.ofChars

def isAttribute (key : Text) : Bool := key.head? = some (.char '@')

mutual
/-- Fills an element with a value: the fields of an object, the items of a list one after another,
or a text that replaces the one before. -/
def fill (d : Draft) : Json → Except NumberError Draft
  | .obj fields => fillFields d fields
  | .arr items => fillItems d items
  | .null => .ok d
  | j => (scalarText j).map d.withText

def fillItems (d : Draft) : List Json → Except NumberError Draft
  | [] => .ok d
  | item :: rest => do
      let d ← fill d item
      fillItems d rest

def fillFields (d : Draft) : List (Text × Json) → Except NumberError Draft
  | [] => .ok d
  | (key, value) :: rest => do
      let d ←
        if isAttribute key then (scalarText value).map (d.withAttribute key.tail)
        else if key = textField then (scalarText value).map d.withText
        else addChildren d key value
      fillFields d rest

/-- A child for a value, or one for every item of a list, however deep. -/
def addChildren (d : Draft) (key : Text) : Json → Except NumberError Draft
  | .arr items => addItems d key items
  | .obj fields => (fillFields (.empty key) fields).map d.withChild
  | .null => .ok (d.withChild (.empty key))
  | j => (scalarText j).map fun text => d.withChild ((Draft.empty key).withText text)

def addItems (d : Draft) (key : Text) : List Json → Except NumberError Draft
  | [] => .ok d
  | item :: rest => do
      let d ← addChildren d key item
      addItems d key rest
end

/-! ### Names -/

/-- A name with its namespace in braces in front; the last brace ends the namespace. -/
def splitName? (cs : List Char) : Option Xml.Name :=
  match cs with
  | '\x7b' :: rest =>
      let label := (rest.reverse.takeWhile (· != '\x7d')).reverse
      if label.length < rest.length then
        some ⟨some (String.ofList (rest.take (rest.length - label.length - 1))), String.ofList label⟩
      else none
  | cs => some ⟨none, String.ofList cs⟩

def nameOf (t : Text) : Except Error Xml.Name :=
  match splitName? (Text.toCharsLossy t) with
  | some name => .ok name
  | none => .error .unclosedSpace

def stringOf (t : Text) : Except Error String :=
  match Text.toString? t with
  | some s => .ok s
  | none => .error .unpairedHalf

mutual
-- All names come before all texts, so a fault in a name is found first.
def checkNames : Draft → Except Error Unit
  | .element name attributes _ children => do
      let _ ← nameOf name
      let _ ← attributes.mapM fun (key, _) => nameOf key
      checkAllNames children

def checkAllNames : List Draft → Except Error Unit
  | [] => .ok ()
  | d :: rest => do
      checkNames d
      checkAllNames rest
end

mutual
def toNode : Draft → Except Error Xml.Node
  | .element name attributes text children => do
      let _ ← stringOf name
      let attributes ← attributes.mapM fun (key, value) => do
        let _ ← stringOf key
        return (← nameOf key, ← stringOf value)
      return .element (← nameOf name) attributes (← stringOf text) (← toNodes children) ""

def toNodes : List Draft → Except Error (List Xml.Node)
  | [] => .ok []
  | d :: rest => do
      let n ← toNode d
      let ns ← toNodes rest
      return n :: ns
end

/-- The draft of a project: a single field with the name of the root is the root itself. -/
def draftOf (fields : List (Text × Json)) : Except NumberError Draft :=
  let root := Text.ofString rootLabel
  match fields with
  | [(key, value)] => if key = root then fill (.empty root) value else fillFields (.empty root) fields
  | fields => fillFields (.empty root) fields

/-- The markup of a project in canonical form; `none` for data that is no object or makes no markup. -/
def ofJson (j : Json) : Except Error (Option (List Char)) :=
  match j with
  | .obj fields => do
      let draft ← (draftOf fields).mapError .number
      checkNames draft
      let node ← toNode draft
      return (Xml.parse? .dropped node.toText).map Xml.Node.canonical
  | _ => .ok none

/-- A project given as markup: the root has the right name, in whatever namespace. -/
def ofMarkup? (cs : List Char) : Option Xml.Node := do
  let root ← Xml.parse? .kept cs
  if root.label = rootLabel then return root else none

end InlineProject.Project
