import InlineProject.Disk.Action
import InlineProject.Json.Parser
import InlineProject.Registry.Basic
import InlineProject.Text.Utf8
/-!
The file of the registry. Of a file by another hand what is valid is kept; a file that makes no
sense counts as none.
-/

namespace InlineProject.Registry

def versionField : String := "version"
def projectsField : String := "projects"
def nameField : String := "name"
def projectFileField : String := "project_file"
def registeredAtField : String := "registered_at"

/-! ### Writing -/

def projectLayout (p : RegisteredProject) : List Char :=
  Json.layoutRecord 2 [
    (Text.ofString nameField, Json.quoted p.name),
    (Text.ofString projectFileField, Json.quoted p.projectFile),
    (Text.ofString registeredAtField, Json.quoted p.registeredAt)]

/-- The text of the file: everything sorted by name. -/
def layout (r : Registry) : List Char :=
  Json.layoutRecord 0 [
    (Text.ofString projectsField,
      Json.layoutRecord 1 (r.entries.map fun (name, p) => (name, projectLayout p))),
    (Text.ofString versionField, ['1'])]

/-- Writes the file if there is one and the registry has changed. -/
def persist (r : Registry) : DiskAction Registry := do
  match r.path with
  | some path =>
      if r.changed then
        DiskAction.makeDirectories true path.parent
        DiskAction.write path (String.ofList r.layout).toUTF8
        return { r with changed := false }
      else return r
  | none => return r

/-! ### Reading -/

inductive LoadError where
  | file (e : FileError)
  | encoding (e : Utf8.Failure)
  | number (e : NumberError)
deriving DecidableEq

/-- One, whether it is written as an integer, as a real number or as truth. -/
def isVersion (j : Json) : Bool :=
  match j with
  | .int i => i = 1
  | .real x => x = Binary64.ofInt 1
  | .bool b => b
  | _ => false

/-- The project that an entry describes. Its file has to be a text; when it was registered need not
be known. -/
def projectOf? (name : Text) (j : Json) : Option RegisteredProject :=
  match j.field? projectFileField with
  | some (.str file) =>
      match j.field? registeredAtField with
      | some (.str moment) => some ⟨name, file, moment⟩
      | _ => some ⟨name, file, []⟩
  | _ => none

def entriesOf (j : Json) : List (Text × RegisteredProject) :=
  match j.field? versionField, j.field? projectsField with
  | some version, some (.obj fields) =>
      if isVersion version then
        fields.filterMap fun (name, value) => (projectOf? name value).map fun p => (name, p)
      else []
  | _, _ => []

/-- The entries that some bytes give. Bytes that are no text are a fault, a text without sense is
none. -/
def entriesOfBytes (content : ByteArray) : Except LoadError (List (Text × RegisteredProject)) :=
  match Utf8.decode content with
  | .error e => .error (.encoding e)
  | .ok s =>
      match Json.readString s with
      | .ok j => .ok (entriesOf j)
      | .error .malformed => .ok []
      | .error (.number e) => .error (.number e)

/-- The registry that a file keeps; without a file it is empty. -/
def load (d : Disk) (path : Option Path) : Except LoadError Registry :=
  match path with
  | none => .ok (empty none)
  | some file =>
      match (DiskAction.read file).run.run d with
      | (.ok content, _) => (entriesOfBytes content).map fun entries => ⟨path, entries, false⟩
      | (.error e, _) =>
          if e.cause = .nullCharacter then .error (.file e) else .ok (empty path)

end InlineProject.Registry
