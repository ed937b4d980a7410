import InlineProject.Proofs.RegistryFile
/-!
Paths with a null character. The system is never asked for one; all other paths are refused for other reasons.
-/

namespace InlineProject

-- Of all failures of the system only a null character in a path stops a run over many files.
theorem Failure.lasting_exact {e : FileError} : (Failure.file e).isTransient = false ↔ e.cause = .nullCharacter := by
  unfold isTransient
  rw [decide_eq_false_iff_not, not_not]

end InlineProject

namespace InlineProject.DiskAction

variable {α β : Type} {p : Path} {d d' : Disk} {e : FileError} {content : ByteArray} {mayExist : Bool}

-- The system may refuse it, but not because of a null character.
def Clean (a : DiskAction α) : Prop := ∀ d e d', a.run.run d = (.error e, d') → e.cause ≠ .nullCharacter

theorem clean_pure {x : α} : Clean (pure x : DiskAction α) := by
  intro d e d' ran
  cases ran

theorem clean_bind {a : DiskAction α} {f : α → DiskAction β} (first : Clean a) (rest : ∀ x, Clean (f x)) :
    Clean (a >>= f) := by
  intro d e d' ran
  rw [run_bind] at ran
  cases begun : a.run.run d with
  | mk result middle =>
    rw [begun] at ran
    cases result with
    | ok x => exact rest x middle e d' ran
    | error e' =>
      cases ran
      exact first d e d' begun

theorem clean_get {f : Disk → DiskAction β} (rest : ∀ d, Clean (f d)) : Clean (get >>= f) := by
  intro d e d' ran
  rw [run_bind, run_get] at ran
  exact rest d d e d' ran

theorem clean_refuse {cause : FileCause} (other : cause ≠ .nullCharacter) :
    Clean (refuse cause p : DiskAction α) := by
  intro d e d' ran
  cases ran
  exact other

theorem clean_throw (other : e.cause ≠ .nullCharacter) : Clean (throw e : DiskAction α) := by
  intro d e d' ran
  cases ran
  exact other

theorem clean_catch {a : DiskAction α} {handler : FileError → DiskAction α} (first : Clean a)
    (caught : ∀ e, e.cause ≠ .nullCharacter → Clean (handler e)) : Clean (tryCatch a handler) := by
  intro d e d' ran
  rw [run_tryCatch] at ran
  cases begun : a.run.run d with
  | mk result middle =>
    rw [begun] at ran
    cases result with
    | ok x => cases ran
    | error e' => exact caught e' (first d e' middle begun) middle e d' ran

theorem clean_locate (clean : p.hasNull = false) : Clean (locate p) := by
  intro d e d' ran
  rw [run_locate] at ran
  cases located : d.locate p with
  | ok place =>
    rw [located] at ran
    cases ran
  | error cause =>
    rw [located] at ran
    cases ran
    unfold Disk.locate at located
    rw [clean, if_neg Bool.false_ne_true] at located
    exact Disk.walk_cause located

theorem clean_checkParent {place : Place} : Clean (checkParent place p) := by
  unfold checkParent
  refine clean_get fun d => ?_
  split
  · exact clean_pure
  · exact clean_refuse nofun
  · exact clean_refuse nofun

theorem look_cause (stopped : d.look p = .error e) : e.cause ≠ .nullCharacter := by
  unfold Disk.look at stopped
  split at stopped
  · cases stopped
  · cases stopped
    exact nofun
  · cases stopped

theorem clean_pathExists : Clean (pathExists p) := by
  intro d e d' ran
  rw [run_pathExists] at ran
  cases seen : d.look p with
  | ok item =>
    rw [seen] at ran
    cases ran
  | error e' =>
    rw [seen] at ran
    cases ran
    exact look_cause seen

theorem clean_isDirectory : Clean (isDirectory p) := by
  intro d e d' ran
  rw [run_isDirectory] at ran
  cases seen : d.look p with
  | ok item =>
    rw [seen] at ran
    cases ran
  | error e' =>
    rw [seen] at ran
    cases ran
    exact look_cause seen

theorem clean_write (clean : p.hasNull = false) : Clean (write p content) := by
  unfold write
  refine clean_bind (clean_locate clean) fun place => clean_get fun d => ?_
  split
  · exact clean_refuse nofun
  · refine clean_bind clean_checkParent fun _ => ?_
    intro d e d' ran
    cases ran

theorem clean_makeOne (clean : p.hasNull = false) : Clean (makeOne mayExist p) := by
  have making : Clean (makeDirectory p) := by
    unfold makeDirectory
    refine clean_bind (clean_locate clean) fun place => clean_get fun d => ?_
    split
    · exact clean_refuse nofun
    · refine clean_bind clean_checkParent fun _ => ?_
      intro d e d' ran
      cases ran
  unfold makeOne
  refine clean_catch making fun e other => ?_
  split
  · refine clean_bind clean_isDirectory fun there => ?_
    split
    · exact clean_pure
    · exact clean_throw other
  · exact clean_throw other

-- The induction is on the names; those above are part of the path.
theorem clean_makeFrom {anchor : Anchor} {names : List String}
    (clean : (Path.mk anchor names.reverse).hasNull = false) : Clean (makeFrom anchor mayExist names) := by
  induction names generalizing mayExist with
  | nil => exact clean_makeOne clean
  | cons name above ih =>
    have higher : (Path.mk anchor above.reverse).hasNull = false := by
      rw [List.reverse_cons] at clean
      exact (Path.hasNull_append.mp clean).1
    unfold makeFrom
    refine clean_catch (clean_makeOne clean) fun e other => ?_
    split
    · exact clean_bind (ih higher) fun _ => clean_makeOne clean
    · exact clean_throw other

theorem clean_makeDirectories (clean : p.hasNull = false) : Clean (makeDirectories mayExist p) := by
  unfold makeDirectories
  refine clean_makeFrom ?_
  rwa [List.reverse_reverse]

-- A path with a null character is refused at once.
theorem locate_null (null : p.hasNull = true) :
    (locate p).run.run d = (.error ⟨.nullCharacter, p.toString⟩, d) := by
  rw [run_locate]
  unfold Disk.locate
  rw [null, if_pos rfl]

theorem write_null (null : p.hasNull = true) :
    (write p content).run.run d = (.error ⟨.nullCharacter, p.toString⟩, d) := by
  unfold write
  rw [run_bind, locate_null null]

theorem makeOne_null (null : p.hasNull = true) :
    (makeOne mayExist p).run.run d = (.error ⟨.nullCharacter, p.toString⟩, d) := by
  have making : (makeDirectory p).run.run d = (.error ⟨.nullCharacter, p.toString⟩, d) := by
    unfold makeDirectory
    rw [run_bind, locate_null null]
  unfold makeOne
  rw [run_tryCatch, making]
  dsimp only
  rw [if_neg (by simp)]
  rfl

theorem makeDirectories_null (null : p.hasNull = true) :
    (makeDirectories mayExist p).run.run d = (.error ⟨.nullCharacter, p.toString⟩, d) := by
  unfold makeDirectories
  cases names : p.parts.reverse with
  | nil =>
    rw [List.reverse_eq_nil_iff] at names
    unfold Path.hasNull at null
    rw [names] at null
    cases null
  | cons name above =>
    have same : Path.mk p.anchor (name :: above).reverse = p := by
      rw [← names, List.reverse_reverse]
    unfold makeFrom
    rw [same, run_tryCatch, makeOne_null null]
    rfl

-- Who is refused because of a null character has one.
theorem null_of_write (ran : (write p content).run.run d = (.error e, d')) (null : e.cause = .nullCharacter) :
    p.hasNull = true ∧ e = ⟨.nullCharacter, p.toString⟩ := by
  cases holds : p.hasNull with
  | false => exact absurd null (clean_write holds d e d' ran)
  | true =>
    rw [write_null holds] at ran
    cases ran
    exact ⟨rfl, rfl⟩

theorem null_of_makeDirectories (ran : (makeDirectories mayExist p).run.run d = (.error e, d'))
    (null : e.cause = .nullCharacter) : p.hasNull = true ∧ e = ⟨.nullCharacter, p.toString⟩ := by
  cases holds : p.hasNull with
  | false => exact absurd null (clean_makeDirectories holds d e d' ran)
  | true =>
    rw [makeDirectories_null holds] at ran
    cases ran
    exact ⟨rfl, rfl⟩

end InlineProject.DiskAction
