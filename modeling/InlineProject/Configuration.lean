import InlineProject.Descriptor.Attribute
import InlineProject.Failure
import InlineProject.Text.Lines
import InlineProject.Yaml.Access
/-!
The settings of a run and the file that keeps them. A setting that the file does not give, or gives
as something else than a text or a number, or as an empty text, is the default one.
-/

namespace InlineProject

/-- What a generated project consists of besides its sources. -/
structure ProjectSettings where
  -- The suffix of the project file.
  extension : String
  -- The project that stands in for a descriptor that cannot be used.
  defaultXml : String
  readme : String
  -- The name of the file for using directives, without its suffix.
  globalUsings : String
deriving DecidableEq, Repr

structure CommitSettings where
  identity : Git.Identity
  message : String
  initialMessage : String
deriving DecidableEq, Repr

structure Configuration where
  -- The directory of the file.
  root : Path
  output : Option Path
  registryFile : Option Path
  project : ProjectSettings
  commits : CommitSettings
  mode : MarkMode
  -- The suffixes of the files that a directory is searched for.
  suffixes : List String
deriving DecidableEq, Repr

namespace MarkMode

def name : MarkMode → String
  | .structured => "structured"
  | .text => "text"

def all : List MarkMode := [.structured, .text]

end MarkMode

namespace Configuration

def fileName : String := ".adhoc.yml"

def defaultProject : ProjectSettings := {
  extension := ".csproj"
  defaultXml := "<Project Sdk=\"Microsoft.NET.Sdk\" />"
  readme := "# AdHoc Project\n"
  globalUsings := "GlobalUsings" }

def defaultCommits : CommitSettings := {
  identity := ⟨"AdHocCSharp", "adhoc@example.com"⟩
  message := "Created AdHoc Project"
  initialMessage := "Initializing Repository" }

def default (root : Path) : Configuration := {
  root := root
  output := none
  registryFile := none
  project := defaultProject
  commits := defaultCommits
  mode := .structured
  suffixes := [".cs"] }

/-- Faults of the file that the user is told of. -/
inductive Complaint where
  | unreadable (name : String) (e : FileError)
  | malformed (name : String) (cause : Yaml.Error)
  | notMapping
  | unknownMode
deriving DecidableEq

namespace Complaint

/-- What the user is told; of a malformed document just that it is one. -/
def message : Complaint → String
  | .unreadable name e => "Failed to read " ++ name ++ ": " ++ e.message
  | .malformed name _ => "Failed to parse " ++ name
  | .notMapping => fileName ++ " must contain a mapping at the root"
  | .unknownMode =>
      "descriptor.attribute_rewrite must be one of: "
        ++ ", ".intercalate (MarkMode.all.map MarkMode.name)

end Complaint

inductive Error where
  | complaint (c : Complaint)
  | failure (f : Failure)
deriving DecidableEq

/-! ### Single settings -/

def liftNumber {α : Type} (r : Except NumberError α) : Except Error α :=
  r.mapError fun e => .failure (.number e)

/-- The text of a setting, which may be written as a number. -/
def textOf : Yaml.Datum → Except Error (Option String)
  | .text t => .ok (some t.toStringLossy)
  | .int i => do return some (← liftNumber (Integer.write i))
  | .real x => .ok (some x.text)
  | _ => .ok none

/-- A setting; one that is empty counts as not given. -/
def setting (v : Option Yaml.Value) : Except Error (Option String) :=
  match v with
  | some (.datum d) => do return (← textOf d).filter fun s => !s.isEmpty
  | _ => .ok none

def settingOr (v : Option Yaml.Value) (otherwise : String) : Except Error String := do
  return (← setting v).getD otherwise

/-- An item of a list of settings; truth values have texts there. -/
def itemOf : Yaml.Datum → Except Error (Option String)
  | .bool b => .ok (some (if b then "True" else "False"))
  | d => textOf d

def itemsOf : List Yaml.Datum → Except Error (List String)
  | [] => .ok []
  | d :: rest => do
      let item ← itemOf d
      return item.toList ++ (← itemsOf rest)

def dataOf (l : Yaml.Loaded) (ids : List Nat) : List Yaml.Datum :=
  ids.filterMap fun id =>
    match l.value? id with
    | some (.datum d) => some d
    | _ => none

/-- A list of settings. A single text is a list of its own, and bytes are a list of numbers. -/
def settings (l : Yaml.Loaded) (v : Option Yaml.Value) : Except Error (List String) :=
  match v with
  | some (.datum (.text t)) => .ok [t.toStringLossy]
  | some (.datum (.bytes bs)) => .ok (bs.map fun b => toString b.toNat)
  | some (.list ids) => itemsOf (dataOf l ids)
  | _ => .ok []

/-- A suffix, with the dot in front that may be left out. -/
def dotted (s : String) : String := if s.toList.head? = some '.' then s else "." ++ s

/-! ### Groups of settings -/

def projectOf (field : String → Option Yaml.Value) : Except Error ProjectSettings := do
  let extension ← setting (field "extension")
  return {
    extension := (extension.map dotted).getD defaultProject.extension
    defaultXml := ← settingOr (field "default_xml") defaultProject.defaultXml
    readme := ← settingOr (field "readme") defaultProject.readme
    globalUsings := ← settingOr (field "global_usings") defaultProject.globalUsings }

def commitsOf (field : String → Option Yaml.Value) : Except Error CommitSettings := do
  let author ← settingOr (field "author_name") defaultCommits.identity.name
  let email ← settingOr (field "author_email") defaultCommits.identity.email
  return {
    identity := ⟨author, email⟩
    message := ← settingOr (field "commit_message") defaultCommits.message
    initialMessage := ← settingOr (field "init_message") defaultCommits.initialMessage }

/-- A mode by its name, in letters of any case and with blanks around it. -/
def modeNamed (s : String) : Except Error MarkMode :=
  let name := Lowercase.ofString (Blank.trimString s)
  match MarkMode.all.find? fun mode => mode.name = name with
  | some mode => .ok mode
  | none => .error (.complaint .unknownMode)

def modeOf (field : String → Option Yaml.Value) : Except Error MarkMode := do
  match ← setting (field "attribute_rewrite") with
  | some s => modeNamed s
  | none => return .structured

/-- The settings in a mapping. -/
def ofDocument (root : Path) (l : Yaml.Loaded) (top : Yaml.Value) : Except Error Configuration := do
  let group (name field : String) : Option Yaml.Value :=
    (l.field? top name).bind fun v => l.field? v field
  let output ← setting (l.field? top "output")
  let registryFile ← setting (l.field? top "workspace")
  let project ← projectOf (group "project")
  let commits ← commitsOf (group "git")
  let mode ← modeOf (group "descriptor")
  let suffixes ← settings l (group "sources" "suffixes")
  return {
    root := root
    output := output.map root.join
    registryFile := registryFile.map root.join
    project := project
    commits := commits
    mode := mode
    suffixes := if suffixes.isEmpty then (default root).suffixes else suffixes.map dotted }

/-! ### The file -/

/-- The settings in the text of a file. A document without content gives none. -/
def ofText (root : Path) (name : String) (cs : List Char) : Except Error Configuration :=
  if Blank.isBlankText cs then .ok (default root)
  else
    match Yaml.load cs with
    | .error e =>
        if e.isMalformed then .error (.complaint (.malformed name e))
        else .error (.failure (.descriptor e))
    | .ok l =>
        if l.top.isVoid then .ok (default root)
        else if l.top.isDict then ofDocument root l l.top
        else .error (.complaint .notMapping)

def ofBytes (root : Path) (name : String) (content : ByteArray) : Except Error Configuration :=
  match Utf8.decode content with
  | .error e => .error (.failure (.encoding e))
  | .ok s => ofText root name (Lines.unifyBreaks s.toList)

/-- The file that a path stands for: in a directory it has its own name. -/
def locate (here p : Path) : DiskAction Path := do
  if ← DiskAction.isDirectory (here ++ p) then DiskAction.resolve here (p.join fileName)
  else DiskAction.resolve here p

/-- The content of the file, if there is one. -/
def contentAt (here p : Path) : DiskAction (Path × Option (Except FileError ByteArray)) := do
  let file ← locate here p
  if ← DiskAction.pathExists file then
    match (DiskAction.read file).run.run (← get) with
    | (result, _) => return (file, some result)
  else return (file, none)

/-- The settings that a path stands for, seen from a directory. Without a file all are the default
ones. -/
def load (d : Disk) (here p : Path) : Except Error Configuration :=
  match (contentAt here p).run.run d with
  | (.error e, _) => .error (.failure (.file e))
  | (.ok (file, none), _) => .ok (default file.parent)
  | (.ok (file, some (.error e)), _) => .error (.complaint (.unreadable file.name e))
  | (.ok (file, some (.ok content)), _) => ofBytes file.parent file.name content

end Configuration
end InlineProject
