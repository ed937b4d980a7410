import InlineProject.Proofs.JsonRecords
import InlineProject.Proofs.TouchedFiles
/-!
The file of a registry. A reader of what was written finds the same entries again, in the order of their names;
the entries of any file that can be read have distinct names.
-/

namespace InlineProject

open InlineProject.DiskAction (Grown Writable makeDirectories_grown run_locate write_cases write_parts)

/-! ### What a reader finds -/

section Content

variable {d d' : Disk} {p : Path}

-- What a file holds for a reader of the path.
def Disk.content? (d : Disk) (p : Path) : Option ByteArray :=
  match d.locate p with
  | .ok place => d.file? place
  | .error _ => none

theorem Disk.content?_locate {place : Place} (located : d.locate p = .ok place) :
    d.content? p = d.file? place := by
  unfold Disk.content?
  rw [located]

-- Where the same directories stand the same paths lead somewhere.
theorem Disk.content?_congr (same : SameDirectories (fun _ => True) d d')
    (file : d'.file? p.place = d.file? p.place) : d'.content? p = d.content? p := by
  have back : SameDirectories (fun _ => True) d' d := fun q sorted => (same q sorted).symm
  cases located : d.locate p with
  | ok place =>
    have located' := locate_transfer same (fun _ _ => trivial) located
    rw [content?_locate located, content?_locate located', locate_place located, file]
  | error cause =>
    cases located' : d'.locate p with
    | ok place =>
      rw [locate_transfer back (fun _ _ => trivial) located'] at located
      cases located
    | error _ =>
      unfold content?
      rw [located, located']

theorem Disk.content?_put {q : Place} {content : ByteArray} (free : d.item? q ≠ some .directory)
    (other : p.place ≠ q) : (d.put q (.file content)).content? p = d.content? p := by
  have inside : q ≠ [] := by
    rintro rfl
    exact free rfl
  exact content?_congr (sameDirectories_put free) (file?_put inside other)

theorem Disk.walk_cause {start : Place} {names : List String} {cause : FileCause}
    (stopped : d.walk start names = .error cause) : cause ≠ .nullCharacter := by
  induction names generalizing start with
  | nil => cases stopped
  | cons name rest ih =>
    unfold walk at stopped
    split at stopped
    · cases stopped
      exact nofun
    · cases stopped
      exact nofun
    · split at stopped
      · exact ih stopped
      · split at stopped
        · cases stopped
          exact nofun
        · exact ih stopped

end Content

namespace Registry

variable {σ : Type} {d d' : Disk} {p : Path} {r r' : Registry}
  {entries : List (Text × RegisteredProject)}

-- A registry is loaded from what its file holds, or is empty.
theorem load_exact (clean : p.hasNull = false) : load d (some p) =
    match d.content? p with
    | some content => (entriesOfBytes content).map fun entries => ⟨some p, entries, false⟩
    | none => .ok (empty (some p)) := by
  unfold load Disk.content?
  dsimp only
  rw [DiskAction.run_read]
  cases located : d.locate p with
  | error cause =>
    have other : cause ≠ .nullCharacter := by
      unfold Disk.locate at located
      rw [clean, if_neg Bool.false_ne_true] at located
      exact Disk.walk_cause located
    dsimp only
    rw [if_neg other]
  | ok place =>
    dsimp only
    unfold Disk.file?
    cases there : d.item? place with
    | none => rfl
    | some item => cases item <;> rfl

-- A path with a null character cannot even be tried.
theorem load_clean (loaded : load d (some p) = .ok r) : p.hasNull = false := by
  cases clean : p.hasNull with
  | false => rfl
  | true =>
    have located : d.locate p = .error .nullCharacter := by
      unfold Disk.locate
      rw [if_pos clean]
    unfold load at loaded
    dsimp only at loaded
    rw [DiskAction.run_read, located] at loaded
    cases loaded

/-! ### Entries in order -/

-- Every entry stands under the name of its project and no name twice; all texts can be written down.
structure Proper (entries : List (Text × RegisteredProject)) : Prop where
  distinct : (Json.names entries).Nodup
  named : ∀ entry ∈ entries, entry.2.name = entry.1
  settled : ∀ entry ∈ entries,
    Json.Settled entry.1 ∧ Json.Settled entry.2.projectFile ∧ Json.Settled entry.2.registeredAt

theorem proper_empty : Proper [] := ⟨.nil, nofun, nofun⟩

theorem Proper.perm {others : List (Text × RegisteredProject)} (proper : Proper entries)
    (same : others.Perm entries) : Proper others :=
  ⟨(same.map _).nodup_iff.mpr proper.distinct, fun entry member => proper.named entry (same.mem_iff.mp member),
    fun entry member => proper.settled entry (same.mem_iff.mp member)⟩

-- An entry is found where it stands.
theorem find?_exact {name : Text} {project : RegisteredProject} (distinct : (Json.names r.entries).Nodup) :
    r.find? name = some project ↔ (name, project) ∈ r.entries := Json.find?_names distinct

theorem projectOf?_parts {name : Text} {j : Json} {q : RegisteredProject} (orderly : j.Orderly)
    (read : projectOf? name j = some q) :
    q.name = name ∧ Json.Settled q.projectFile ∧ Json.Settled q.registeredAt := by
  unfold projectOf? at read
  split at read
  · rename_i file found
    have settled := (orderly.field? found).text
    split at read
    · rename_i moment known
      cases read
      exact ⟨rfl, settled, (orderly.field? known).text⟩
    · cases read
      exact ⟨rfl, settled, .nil⟩
  · cases read

theorem entriesOf_proper {j : Json} (orderly : j.Orderly) : Proper (entriesOf j) := by
  unfold entriesOf
  split
  · rename_i version fields _ found
    split
    · cases orderly.field? found with
      | obj distinct settled each =>
        have parts : ∀ entry ∈ fields.filterMap fun entry =>
            (projectOf? entry.1 entry.2).map fun q => (entry.1, q),
            ∃ value, (entry.1, value) ∈ fields ∧ projectOf? entry.1 value = some entry.2 := by
          intro entry member
          obtain ⟨⟨name, value⟩, inside, kept⟩ := List.mem_filterMap.mp member
          obtain ⟨q, read, same⟩ := Option.map_eq_some_iff.mp kept
          subst same
          exact ⟨value, inside, read⟩
        refine ⟨?_, fun entry member => ?_, fun entry member => ?_⟩
        · refine List.pairwise_map.mpr ((List.pairwise_map.mp distinct).filterMap _ ?_)
          rintro ⟨a, x⟩ ⟨b, y⟩ apart c first e second same
          obtain ⟨q, _, rfl⟩ := Option.map_eq_some_iff.mp first
          obtain ⟨q', _, rfl⟩ := Option.map_eq_some_iff.mp second
          exact apart same
        · obtain ⟨value, inside, read⟩ := parts entry member
          exact (projectOf?_parts (each _ inside) read).1
        · obtain ⟨value, inside, read⟩ := parts entry member
          exact ⟨settled _ inside, (projectOf?_parts (each _ inside) read).2⟩
    · exact proper_empty
  · exact proper_empty

theorem entriesOfBytes_proper {content : ByteArray} (read : entriesOfBytes content = .ok entries) :
    Proper entries := by
  unfold entriesOfBytes at read
  split at read
  · cases read
  · split at read
    · rename_i j meant
      cases read
      exact entriesOf_proper (Json.read_orderly meant)
    · cases read
      exact proper_empty
    · cases read

-- Whatever is loaded is in order.
theorem load_proper (loaded : load d (some p) = .ok r) :
    Proper r.entries ∧ r.path = some p ∧ r.changed = false := by
  rw [load_exact (load_clean loaded)] at loaded
  split at loaded
  · rename_i content _
    cases read : entriesOfBytes content with
    | error e =>
      rw [read] at loaded
      cases loaded
    | ok entries =>
      rw [read] at loaded
      cases loaded
      exact ⟨entriesOfBytes_proper read, rfl, rfl⟩
  · cases loaded
    exact ⟨proper_empty, rfl, rfl⟩

end Registry
end InlineProject
