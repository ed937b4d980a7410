import InlineProject.Ignore.Glob
import InlineProject.Text.Blank
import InlineProject.Text.Lines
/-!
Lines of a file that says what to ignore. A pattern with a slash before its end is about paths, all
others about names; a slash at the end restricts it to directories.
-/

namespace InlineProject.Ignore

structure Pattern where
  glob : String
  directoryOnly : Bool
  -- Compared with the path from the root on, not just with the name.
  rooted : Bool
deriving DecidableEq, Repr

namespace Pattern

def isSlash (c : Char) : Bool := c = '/'

/-- The pattern of a line. Comments, exceptions and lines of slashes alone have none. -/
def ofLine? (line : List Char) : Option Pattern :=
  let line := Blank.trim line
  let body := (line.reverse.dropWhile isSlash).reverse
  let glob := body.dropWhile isSlash
  if line.head? = some '#' || line.head? = some '!' || glob.isEmpty then none
  else some ⟨String.ofList glob, line.getLast?.any isSlash, body.contains '/'⟩

/-- The last name of a path. -/
def lastName (path : List Char) : List Char := (path.reverse.takeWhile (!isSlash ·)).reverse

def accepts (p : Pattern) (path : List Char) (isDirectory : Bool) : Bool :=
  (isDirectory || !p.directoryOnly)
    && (Glob.ofString p.glob).accepts (if p.rooted then path else lastName path)

end Pattern

/-- The patterns in the text of a file, in order. -/
def patterns (cs : List Char) : List Pattern := (Lines.split cs).filterMap Pattern.ofLine?

/-- Whether any pattern accepts a path. -/
def acceptsAny (ps : List Pattern) (path : List Char) (isDirectory : Bool) : Bool :=
  ps.any fun p => p.accepts path isDirectory

end InlineProject.Ignore
