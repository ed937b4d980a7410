import InlineProject.Source.Lexeme
import InlineProject.Source.Tree
/-!
Where the comments at the head of a source text and its using directives are. A directive names a
namespace or a type, or gives a name to a type; a statement that begins with the same word declares
a variable or opens a parenthesis.
-/

namespace InlineProject.Source

namespace Directive

abbrev Token := Lexeme × Range

def openingWord : String := "using"

def isSignificant (t : Token) : Bool := t.1 != .gap && t.1 != .comment

def isWord (s : String) (t : Token) : Bool := t.1 = .word s.toList

/-- The tokens behind one that is left out at will. -/
def skipWord (s : String) : List Token → List Token
  | t :: rest => if isWord s t then rest else t :: rest
  | [] => []

/-- What a name or a type is written with, besides words. -/
def isTypeSymbol (c : Char) : Bool := ".,:<>()[]?*&".toList.contains c

-- The end of a name with the arguments of its types. Outside of the angle brackets, words have to be
-- joined by dots or colons.
def nameEnd? (depth : Nat) (afterWord : Bool) : List Token → Option Nat
  | [] => none
  | (.word _, _) :: rest =>
      if depth = 0 && afterWord then none else nameEnd? depth true rest
  | (.symbol c, range) :: rest =>
      if c = ';' then if depth = 0 && afterWord then some range.stop else none
      else if c = '<' then nameEnd? (depth + 1) false rest
      else if c = '>' then if depth = 0 then none else nameEnd? (depth - 1) true rest
      else if c = '.' || c = ':' then nameEnd? depth false rest
      else if 0 < depth && isTypeSymbol c then nameEnd? depth false rest
      else none
  | _ :: _ => none

/-- The end of a type that is given a name. -/
def typeEnd? : List Token → Option Nat
  | [] => none
  | (.word _, _) :: rest => typeEnd? rest
  | (.symbol c, range) :: rest =>
      if c = ';' then some range.stop else if isTypeSymbol c then typeEnd? rest else none
  | _ :: _ => none

/-- The end of a directive behind its first words. -/
def end? (tokens : List Token) : Option Nat :=
  let plain := skipWord "unsafe" tokens
  match plain with
  | (.word _, _) :: (.symbol '=', _) :: rest => typeEnd? rest
  | _ => nameEnd? 0 false (skipWord "unsafe" (skipWord "static" tokens))

-- The search goes on behind a directive that was found.
def amongFrom (cursor : Nat) : List Token → List Range
  | [] => []
  | t :: rest =>
      let behind := if isWord Node.globalWord t then skipWord openingWord rest else rest
      let opens := isWord openingWord t || behind.length < rest.length
      match if cursor ≤ t.2.start && opens then end? behind else none with
      | some stop => ⟨t.2.start, stop⟩ :: amongFrom stop rest
      | none => amongFrom cursor rest

/-- The directives among some tokens. One for the whole project begins a word earlier. -/
def among (tokens : List Token) : List Range := amongFrom 0 tokens

end Directive

/-- The comments before all else. -/
def headComments (lexemes : List (Lexeme × Range)) : List Range :=
  ((lexemes.takeWhile fun l => l.1 = .gap || l.1 = .comment).filter (·.1 = .comment)).map (·.2)

/-- Where the code of a text starts. -/
def codeStart? (lexemes : List (Lexeme × Range)) : Option Nat :=
  (lexemes.find? fun l => l.1 ≠ .gap && l.1 ≠ .comment).map (·.2.start)

/-- The grammar, as far as lexemes give it: the comments at the head, and the directives in what
follows them. -/
def grammar : Grammar := fun cs =>
  let lexemes := Lexeme.all cs
  let directives := Directive.among (lexemes.filter Directive.isSignificant)
  let comments := (headComments lexemes).map fun r => Tree.node .comment r []
  let code := (codeStart? lexemes).toList.map fun start =>
    Tree.node .other ⟨start, cs.length⟩ (directives.map fun r => .node .directive r [])
  .node .other ⟨0, cs.length⟩ (comments ++ code)

/-- The parts of a source text. -/
def Unit.ofString (s : String) : Unit := .parse grammar s

end InlineProject.Source
