import InlineProject.Outcome
import InlineProject.Source.Unit
import InlineProject.Text.Dedent
/-!
Descriptors in documentation comments. A descriptor is written behind the marks of such a comment;
of several comments at the head of a file the first that can be dealt with counts.
-/

namespace InlineProject.Descriptor

/-- The line of a comment without its marks, wherever they stand. -/
def lineText (line : List Char) : List Char :=
  Blank.trimEnd (Replace.all Source.lineDocMark.toList [] (Blank.trim line))

/-- What is written in a documentation comment, without the margin that its lines share. -/
def ofComment (s : String) : String :=
  let lines := (s.toList.splitOn '\n').map lineText
  String.ofList (Blank.trim (List.intercalate ['\n'] (Dedent.lines lines)))

/-- Hands comments to a handler until one of them is dealt with. -/
def firstHandled {m : Type → Type} [Monad m] (handler : Source.Node → m Outcome) :
    List Source.Node → m Outcome
  | [] => return .nothing
  | comment :: rest => do
      let outcome ← handler comment
      if outcome.handled then return outcome else firstHandled handler rest

/-- Hands the comments of a file that may hold a descriptor to a handler, in order. -/
def extract {m : Type → Type} [Monad m] (u : Source.Unit) (handler : Source.Node → m Outcome) :
    m Outcome :=
  firstHandled handler u.descriptorComments

end InlineProject.Descriptor
