import InlineProject.Text.Blank
import InlineProject.Text.Replace
/-!
The parts of a source file: comments at its head, using directives, and code. Parts are told apart
by their place in the file, not by what they say; for comparing what they say there is a key.
-/

namespace InlineProject.Source

inductive Kind where
  | lineDoc
  | blockDoc
  | lineComment
  | blockComment
  | using
  | code
deriving DecidableEq, Repr, Inhabited

/-- Comments do not count as code. -/
def Kind.isTrivia : Kind → Bool
  | .lineDoc | .blockDoc | .lineComment | .blockComment => true
  | .using | .code => false

def byteOrderMark : Char := '\uFEFF'

def lineDocMark : String := "///"

/-- Blanks, and byte order marks anywhere among them. -/
def isBlankText (cs : List Char) : Bool :=
  Blank.isBlankText (cs.filter (· != byteOrderMark))

/-- The kind of a comment by its first characters; further slashes or a closed block make it plain. -/
def classify (cs : List Char) : Kind :=
  let text := Blank.trimStart cs
  let starts (mark : String) : Bool := mark.toList.isPrefixOf text
  if starts "///" && !starts "////" then .lineDoc
  else if starts "/**" && !starts "/**/" then .blockDoc
  else if starts "/*" then .blockComment
  else .lineComment

/-- A part of a file with the indentation and the line break that it owns. `place` is its number
among the parts of the file it came from. -/
structure Node where
  place : Nat
  kind : Kind
  text : String
deriving DecidableEq, Inhabited

namespace Node

def code (n : Node) : String := Blank.trimString n.text

/-- What a part says, whatever its layout. -/
def key (n : Node) : Kind × String := (n.kind, Blank.squeeze n.text)

def globalWord : String := "global"

/-- A directive for the whole project. -/
def asGlobal (n : Node) : String :=
  let code := Blank.squeeze n.text
  if (globalWord ++ " ").toList.isPrefixOf code.toList then code else globalWord ++ " " ++ code

end Node
end InlineProject.Source
