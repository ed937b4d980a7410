import InlineProject.Disk.Action
/-!
What an action on the disk does, step by step, and what is there afterwards.
-/

namespace InlineProject.DiskAction

variable {α β : Type} {d d' : Disk} {p : Path}

theorem run_bind (a : DiskAction α) (f : α → DiskAction β) :
    (a >>= f).run.run d = match a.run.run d with
      | (.ok x, middle) => (f x).run.run middle
      | (.error e, middle) => (.error e, middle) := by
  change (ExceptT.bindCont f (a.run.run d).1).run (a.run.run d).2 = _
  rcases a.run.run d with ⟨result, middle⟩
  cases result with
  | ok x => rfl
  | error e => rfl

theorem bind_parts {a : DiskAction α} {f : α → DiskAction β} {y : β}
    (ran : (a >>= f).run.run d = (.ok y, d')) :
    ∃ x middle, a.run.run d = (.ok x, middle) ∧ (f x).run.run middle = (.ok y, d') := by
  rw [run_bind] at ran
  cases first : a.run.run d with
  | mk result middle =>
    rw [first] at ran
    cases result with
    | ok x => exact ⟨x, middle, rfl, ran⟩
    | error e => cases ran

theorem run_get : (get : DiskAction Disk).run.run d = (.ok d, d) := rfl

theorem run_tryCatch (a : DiskAction α) (handler : FileError → DiskAction α) :
    (tryCatch a handler).run.run d = match a.run.run d with
      | (.ok x, middle) => (.ok x, middle)
      | (.error e, middle) => (handler e).run.run middle := by
  change (ExceptT.tryCatch a handler).run.run d = _
  cases ran : a.run.run d with
  | mk result middle =>
    have ran : a d = (result, middle) := ran
    simp only [ExceptT.tryCatch, ExceptT.run, ExceptT.mk, StateT.run, bind, StateT.bind, ran]
    cases result with
    | ok x => rfl
    | error e => rfl

theorem run_locate : (locate p).run.run d = match d.locate p with
    | .ok place => (.ok place, d)
    | .error cause => (.error ⟨cause, p.toString⟩, d) := by
  unfold locate
  rw [run_bind, run_get]
  dsimp only
  cases d.locate p <;> rfl

theorem run_read : (DiskAction.read p).run.run d = match d.locate p with
    | .error cause => (.error ⟨cause, p.toString⟩, d)
    | .ok place => match d.item? place with
      | some (.file content) => (.ok content, d)
      | some .directory => (.error ⟨.isDirectory, p.toString⟩, d)
      | none => (.error ⟨.notFound, p.toString⟩, d) := by
  unfold read
  rw [run_bind, run_locate]
  cases d.locate p with
  | error cause => rfl
  | ok place =>
    dsimp only
    rw [run_bind, run_get]
    dsimp only
    cases d.item? place with
    | none => rfl
    | some item => cases item <;> rfl

theorem run_checkParent {place : Place} : (checkParent place p).run.run d =
    match d.item? place.dropLast with
    | some .directory => (.ok (), d)
    | some (.file _) => (.error ⟨.notDirectory, p.toString⟩, d)
    | none => (.error ⟨.notFound, p.toString⟩, d) := by
  unfold checkParent
  rw [run_bind, run_get]
  dsimp only
  cases d.item? place.dropLast with
  | none => rfl
  | some item => cases item <;> rfl

-- Where a file can be written, it holds what was written, and nothing else has changed.
structure Writable (d : Disk) (p : Path) (place : Place) : Prop where
  located : d.locate p = .ok place
  noDirectory : d.item? place ≠ some .directory
  parent : d.item? place.dropLast = some .directory

theorem run_write {content : ByteArray} : (write p content).run.run d = match d.locate p with
    | .error cause => (.error ⟨cause, p.toString⟩, d)
    | .ok place => match d.item? place with
      | some .directory => (.error ⟨.isDirectory, p.toString⟩, d)
      | _ => match d.item? place.dropLast with
        | some .directory => (.ok (), d.put place (.file content))
        | some (.file _) => (.error ⟨.notDirectory, p.toString⟩, d)
        | none => (.error ⟨.notFound, p.toString⟩, d) := by
  unfold write
  rw [run_bind, run_locate]
  cases d.locate p with
  | error cause => rfl
  | ok place =>
    have entering : (checkParent place p >>= fun _ => modify fun d => d.put place (.file content)).run.run d
        = match d.item? place.dropLast with
          | some .directory => (.ok (), d.put place (.file content))
          | some (.file _) => (.error ⟨.notDirectory, p.toString⟩, d)
          | none => (.error ⟨.notFound, p.toString⟩, d) := by
      rw [run_bind, run_checkParent]
      cases d.item? place.dropLast with
      | none => rfl
      | some item => cases item <;> rfl
    dsimp only
    rw [run_bind, run_get]
    dsimp only
    cases d.item? place with
    | none => exact entering
    | some item =>
      cases item with
      | file _ => exact entering
      | directory => rfl

theorem write_of_writable {place : Place} {content : ByteArray} (writable : Writable d p place) :
    (write p content).run.run d = (.ok (), d.put place (.file content)) := by
  rw [run_write, writable.located]
  dsimp only
  split
  · exact absurd ‹_› writable.noDirectory
  · rw [writable.parent]

theorem write_parts {content : ByteArray} (ran : (write p content).run.run d = (.ok (), d')) :
    ∃ place, Writable d p place ∧ d' = d.put place (.file content) := by
  rw [run_write] at ran
  split at ran
  · cases ran
  · rename_i place located
    split at ran
    · cases ran
    · rename_i noDirectory
      split at ran
      · rename_i parent
        cases ran
        exact ⟨place, ⟨located, noDirectory, parent⟩, rfl⟩
      · cases ran
      · cases ran

theorem writable_inside {place : Place} (writable : Writable d p place) : place ≠ [] := by
  rintro rfl
  exact writable.noDirectory rfl

end InlineProject.DiskAction
