import InlineProject.Xml.Namespace
/-!
From tree to text. Every namespace in use gets one prefix, declared on the root: the well-known one
if there is one, else the next of a numbered series. An element without content is closed at once.
-/

namespace InlineProject.Xml

def escapeText : Char → List Char
  | '&' => "&amp;".toList
  | '<' => "&lt;".toList
  | '>' => "&gt;".toList
  | c => [c]

/-- Values also escape the quote and the characters that reading would turn into spaces. -/
def escapeValue : Char → List Char
  | '\x22' => "&quot;".toList
  | '\r' => "&#13;".toList
  | '\n' => "&#10;".toList
  | '\t' => "&#09;".toList
  | c => escapeText c

def escapedText (s : String) : List Char := s.toList.flatMap escapeText
def escapedValue (s : String) : List Char := s.toList.flatMap escapeValue

/-! ### Prefixes -/

/-- The prefixes of namespaces in the order of their first use. -/
abbrev Marks := List (String × String)

def addSpace (marks : Marks) (uri : String) : Marks :=
  if (marks.lookup uri).isSome then marks
  else
    let mark := (wellKnown.lookup uri).getD ("ns" ++ toString marks.length)
    -- This prefix is bound everywhere and not declared.
    if mark = "xml" then marks else marks ++ [(uri, mark)]

def addName (marks : Marks) (n : Name) : Marks :=
  match n.space with
  | some uri => addSpace marks uri
  | none => marks

mutual
/-- The prefixes that a tree needs: elements before their attributes, both before the children. -/
def Node.collectMarks (marks : Marks) : Node → Marks
  | .element name attributes _ children _ =>
      collectAll ((name :: attributes.map (·.1)).foldl addName marks) children
  | .comment _ _ => marks

def collectAll (marks : Marks) : List Node → Marks
  | [] => marks
  | n :: rest => collectAll (n.collectMarks marks) rest
end

def Marks.write (marks : Marks) (n : Name) : List Char :=
  match n.space with
  | none => n.label.toList
  | some uri =>
      let mark := if uri = xmlSpace then "xml" else (marks.lookup uri).getD ""
      if mark = "" then n.label.toList else mark.toList ++ ':' :: n.label.toList

def attributeText (name : List Char) (value : String) : List Char :=
  ' ' :: name ++ '=' :: '\x22' :: escapedValue value ++ ['\x22']

/-- The declarations of all prefixes, in the order of the prefixes. -/
def Marks.declarations (marks : Marks) : List Char :=
  (marks.mergeSort fun a b => a.2 ≤ b.2).flatMap fun (uri, mark) =>
    attributeText ("xmlns:".toList ++ mark.toList) uri

/-! ### Text -/

mutual
/-- The text of a tree with its tail. `declared` is put into the tag of the tree itself. -/
def Node.write (marks : Marks) (declared : List Char) : Node → List Char
  | .comment text tail => "<!--".toList ++ text.toList ++ "-->".toList ++ escapedText tail
  | .element name attributes text children tail =>
      let written := marks.write name
      let given := attributes.flatMap fun (name, value) => attributeText (marks.write name) value
      let start := '<' :: written ++ declared ++ given
      let body :=
        if text.isEmpty && children.isEmpty then start ++ [' ', '/', '>']
        else
          start ++ '>' :: escapedText text ++ writeAll marks children
            ++ '<' :: '/' :: written ++ ['>']
      body ++ escapedText tail

def writeAll (marks : Marks) : List Node → List Char
  | [] => []
  | n :: rest => n.write marks [] ++ writeAll marks rest
end

def Node.toText (n : Node) : List Char :=
  let marks := n.collectMarks []
  n.write marks marks.declarations

end InlineProject.Xml
