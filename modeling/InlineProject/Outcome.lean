/-!
What comes of the expansion of a source file.
-/

namespace InlineProject

/-- A commit in the repository of a project. -/
structure Commit where
  sha : String
  message : String
deriving DecidableEq, Repr

def Commit.shortSha (c : Commit) : String := String.ofList (c.sha.toList.take 7)

/-- `handled` says that the file has a descriptor that was dealt with, even if no project came of it;
the commit is the state of the project afterwards. -/
structure Outcome where
  handled : Bool
  commit : Option Commit
deriving DecidableEq, Repr

namespace Outcome

def nothing : Outcome := ⟨false, none⟩

def withoutProject : Outcome := ⟨true, none⟩

def committed (c : Commit) : Outcome := ⟨true, some c⟩

end Outcome
end InlineProject
