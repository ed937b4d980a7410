import InlineProject.Proofs.RefusedNumbers
import InlineProject.Proofs.RegistryFile
/-!
What a registry keeps of its file. Of a file that is a text its valid entries are kept and nothing else, unless a number
in it is refused; of bytes that are no text nothing is kept and loading fails.
-/

namespace InlineProject

/-! ### Fields -/

namespace Json

variable {j v : Json} {name : String}

-- A field of an object, whatever stands beside it.
def Has (j : Json) (name : String) (v : Json) : Prop :=
  ∃ fields, j = .obj fields ∧ (Text.ofString name, v) ∈ fields

-- In a value whose names are distinct a field is found where it stands.
theorem Orderly.field?_exact (orderly : j.Orderly) : j.field? name = some v ↔ j.Has name v := by
  cases orderly with
  | obj distinct _ _ =>
    refine (find?_names distinct).trans ⟨fun member => ⟨_, rfl, member⟩, ?_⟩
    rintro ⟨fields, same, member⟩
    cases same
    exact member
  | null | bool | int | real | str | arr =>
    constructor
    · intro found
      cases found
    · rintro ⟨fields, same, _⟩
      cases same

end Json

namespace Registry

variable {d : Disk} {p : Path} {r : Registry} {content : ByteArray} {j entry : Json} {name : Text}
  {project : RegisteredProject} {e : LoadError}

/-! ### Entries -/

-- The version of the files that are read.
def IsOne (j : Json) : Prop := j = .int 1 ∨ j = .real (Binary64.ofInt 1) ∨ j = .bool true

theorem isVersion_exact : isVersion j = true ↔ IsOne j := by
  unfold isVersion IsOne
  cases j <;> simp

-- What an entry says of a project. A moment that is no text counts as none.
structure Describes (entry : Json) (name : Text) (project : RegisteredProject) : Prop where
  named : project.name = name
  file : entry.Has projectFileField (.str project.projectFile)
  moment : entry.Has registeredAtField (.str project.registeredAt) ∨
    project.registeredAt = [] ∧ ∀ t, ¬entry.Has registeredAtField (.str t)

-- A project among those of a value.
def Lists (j : Json) (name : Text) (project : RegisteredProject) : Prop :=
  ∃ version members entry, j.Has versionField version ∧ IsOne version ∧ j.Has projectsField (.obj members) ∧
    (name, entry) ∈ members ∧ Describes entry name project

theorem projectOf?_exact (orderly : entry.Orderly) :
    projectOf? name entry = some project ↔ Describes entry name project := by
  unfold projectOf?
  constructor
  · intro read
    split at read
    · rename_i file found
      have file := orderly.field?_exact.mp found
      split at read
      · rename_i moment known
        cases read
        exact ⟨rfl, file, .inl (orderly.field?_exact.mp known)⟩
      · rename_i other
        cases read
        exact ⟨rfl, file, .inr ⟨rfl, fun t known => other t (orderly.field?_exact.mpr known)⟩⟩
    · cases read
  · rintro ⟨rfl, file, moment⟩
    rw [orderly.field?_exact.mpr file]
    dsimp only
    rcases moment with known | ⟨none, unknown⟩
    · rw [orderly.field?_exact.mpr known]
    · split
      · rename_i t known
        exact absurd (orderly.field?_exact.mp known) (unknown t)
      · rw [← none]

-- The entries are all the projects of a value and no others.
theorem mem_entriesOf (orderly : j.Orderly) : (name, project) ∈ entriesOf j ↔ Lists j name project := by
  unfold entriesOf
  constructor
  · intro member
    split at member
    · rename_i version members foundVersion foundProjects
      split at member
      · rename_i one
        obtain ⟨⟨key, entry⟩, inside, kept⟩ := List.mem_filterMap.mp member
        obtain ⟨q, read, same⟩ := Option.map_eq_some_iff.mp kept
        cases same
        cases orderly.field? foundProjects with
        | obj _ _ each =>
          exact ⟨version, members, entry, orderly.field?_exact.mp foundVersion, isVersion_exact.mp one,
            orderly.field?_exact.mp foundProjects, inside, (projectOf?_exact (each _ inside)).mp read⟩
      · cases member
    · cases member
  · rintro ⟨version, members, entry, hasVersion, one, hasProjects, inside, describes⟩
    have found := orderly.field?_exact.mpr hasProjects
    rw [orderly.field?_exact.mpr hasVersion, found]
    dsimp only
    rw [if_pos (isVersion_exact.mpr one)]
    cases orderly.field? found with
    | obj _ _ each =>
      refine List.mem_filterMap.mpr ⟨(name, entry), inside, ?_⟩
      exact Option.map_eq_some_iff.mpr ⟨project, (projectOf?_exact (each _ inside)).mpr describes, rfl⟩

/-! ### Files -/

-- Why a file is refused: its bytes are no text, or an integer in it has too many digits.
def Refused (content : ByteArray) (e : LoadError) : Prop :=
  (∃ f, Utf8.decode content = .error f ∧ e = .encoding f) ∨
    ∃ text n, Utf8.decode content = .ok text ∧ Json.readString text = .error (.number n) ∧
      Json.Oversized text.toList n ∧ e = .number n

structure Salvaged (content : ByteArray) (p : Path) (r : Registry) : Prop where
  path : r.path = some p
  unchanged : r.changed = false
  distinct : (Json.names r.entries).Nodup
  listed : ∀ name project, (name, project) ∈ r.entries ↔
    ∃ text j, Utf8.decode content = .ok text ∧ Json.readString text = .ok j ∧ Lists j name project

theorem entriesOfBytes_error : entriesOfBytes content = .error e ↔ Refused content e := by
  unfold entriesOfBytes
  constructor
  · intro refused
    split at refused
    · rename_i f decoded
      cases refused
      exact .inl ⟨f, decoded, rfl⟩
    · rename_i text decoded
      split at refused
      · cases refused
      · cases refused
      · rename_i n read
        cases refused
        exact .inr ⟨text, n, decoded, read, Json.read_oversized read, rfl⟩
  · rintro (⟨f, decoded, rfl⟩ | ⟨text, n, decoded, read, _, rfl⟩)
    · rw [decoded]
    · rw [decoded]
      dsimp only
      rw [read]

theorem mem_entriesOfBytes {entries : List (Text × RegisteredProject)} (read : entriesOfBytes content = .ok entries) :
    (name, project) ∈ entries ↔
      ∃ text j, Utf8.decode content = .ok text ∧ Json.readString text = .ok j ∧ Lists j name project := by
  unfold entriesOfBytes at read
  split at read
  · cases read
  · rename_i text decoded
    rw [decoded]
    split at read
    · rename_i j meant
      cases read
      rw [mem_entriesOf (Json.read_orderly meant)]
      constructor
      · exact fun lists => ⟨text, j, rfl, meant, lists⟩
      · rintro ⟨_, other, same, alsoMeant, lists⟩
        cases same
        rw [meant] at alsoMeant
        cases alsoMeant
        exact lists
    · rename_i malformed
      cases read
      refine iff_of_false List.not_mem_nil ?_
      rintro ⟨_, other, same, meant, _⟩
      cases same
      rw [malformed] at meant
      cases meant
    · cases read

theorem load_stored (stored : d.content? p = some content) :
    load d (some p) = (entriesOfBytes content).map fun entries => ⟨some p, entries, false⟩ := by
  have clean : p.hasNull = false := by
    refine Bool.eq_false_iff.mpr fun null => ?_
    unfold Disk.content? Disk.locate at stored
    rw [if_pos null] at stored
    cases stored
  rw [load_exact clean, stored]

-- A file that is there is loaded unless it is refused, and the projects that it lists are the entries.
theorem load_salvages (stored : d.content? p = some content) :
    (∀ e, load d (some p) = .error e ↔ Refused content e) ∧
      ∀ r, load d (some p) = .ok r → Salvaged content p r := by
  constructor
  · intro e
    rw [load_stored stored, ← entriesOfBytes_error]
    cases entriesOfBytes content with
    | error f =>
      constructor
      · intro same
        cases same
        rfl
      · intro same
        cases same
        rfl
    | ok entries =>
      constructor
      · intro loaded
        cases loaded
      · intro refused
        cases refused
  · intro r loaded
    obtain ⟨proper, path, unchanged⟩ := load_proper loaded
    refine ⟨path, unchanged, proper.distinct, fun name project => ?_⟩
    rw [load_stored stored] at loaded
    cases read : entriesOfBytes content with
    | error =>
      rw [read] at loaded
      cases loaded
    | ok entries =>
      rw [read] at loaded
      cases loaded
      exact mem_entriesOfBytes read

def shelf (content : ByteArray) : Disk := ⟨[(["projects.json"], .file content)]⟩

def mixedContent : ByteArray :=
  ("\x7b\"version\": 1.0, \"projects\": \x7b\"A\": \x7b\"project_file\": \"A.csproj\", \"registered_at\": 3\x7d, "
    ++ "\"B\": 4\x7d\x7d").toUTF8

-- Of two entries one is valid; a byte that is no text makes the file one that cannot be loaded.
theorem load_salvages_mixed :
    Salvaged mixedContent ⟨.root, ["projects.json"]⟩ ⟨some ⟨.root, ["projects.json"]⟩,
        [(Text.ofString "A", ⟨Text.ofString "A", Text.ofString "A.csproj", []⟩)], false⟩ ∧
      ∃ e, load (shelf ⟨#[0xFF]⟩) (some ⟨.root, ["projects.json"]⟩) = .error e ∧ Refused ⟨#[0xFF]⟩ e := by
  have first : (shelf mixedContent).content? ⟨.root, ["projects.json"]⟩ = some mixedContent := rfl
  have second : (shelf ⟨#[0xFF]⟩).content? ⟨.root, ["projects.json"]⟩ = some ⟨#[0xFF]⟩ := rfl
  have entries : entriesOfBytes mixedContent
      = .ok [(Text.ofString "A", ⟨Text.ofString "A", Text.ofString "A.csproj", []⟩)] := by decide +kernel
  have loaded := load_stored first
  rw [entries] at loaded
  have refused : Refused ⟨#[0xFF]⟩ (.encoding ⟨0xFF, 0, 1, .invalidStart⟩) := .inl ⟨_, by decide +kernel, rfl⟩
  exact ⟨(load_salvages first).2 _ loaded, _, ((load_salvages second).1 _).mpr refused, refused⟩

end Registry
end InlineProject
