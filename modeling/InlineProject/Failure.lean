import InlineProject.Git.Call
import InlineProject.Registry.File
import InlineProject.Scan
import InlineProject.Yaml.Error
/-!
Why an action of a run fails: the system, the version control program, or what a file holds.
-/

namespace InlineProject

/-- Why an action fails. -/
inductive Failure where
  | file (e : FileError)
  | git (e : Git.Failure)
  -- A file that is not below the repository that shall take it.
  | outside (repository : Path)
  | encoding (e : Utf8.Failure)
  | number (e : NumberError)
  | descriptor (e : Yaml.Error)
  | markupEncoding (name : String)
  -- A document in an encoding whose characters have several bytes.
  | manyBytes
  | scan (e : Scan.Error)
deriving DecidableEq

namespace Failure

/-- Failures of the system and of the version control program, which one file may have without
stopping the run. -/
def isTransient : Failure → Bool
  | .file e => e.cause ≠ .nullCharacter
  | .git _ => true
  | _ => false

def outsideMessage (repository : Path) : String :=
  "File is outside of the repository. [" ++ repository.toString ++ "]"

/-- The failures that the journal tells of. -/
def message : Failure → String
  | .file e => e.message
  | .git e => e.message
  | .outside repository => outsideMessage repository
  | .encoding e => e.message
  | .number e => e.message
  | .descriptor _ => "unreadable descriptor"
  | .markupEncoding name => "unknown encoding: " ++ name
  | .manyBytes => "multi-byte encodings are not supported"
  | .scan e => e.message

def ofLoad : Registry.LoadError → Failure
  | .file e => .file e
  | .encoding e => .encoding e
  | .number e => .number e

end Failure

end InlineProject
