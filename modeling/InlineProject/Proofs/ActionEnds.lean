import InlineProject.Proofs.ActionRun
/-!
Where an action leads, whether it ends well or fails. What has been done before a failure stays done, so both ends
are described.
-/

namespace InlineProject

open InlineProject.Action

variable {σ α β : Type}

-- Where an action ends well it gives what is good; where it fails what is left is what `bad` says.
structure Leads (runner : Git.Runner σ) (w : World σ) (good : α → World σ → Prop)
    (bad : Failure → World σ → Prop) (a : Action σ α) : Prop where
  well {x : α} {w' : World σ} (ran : a.run runner w = (.ok x, w')) : good x w'
  failed {f : Failure} {w' : World σ} (ran : a.run runner w = (.error f, w')) : bad f w'

namespace Leads

variable {runner : Git.Runner σ} {w : World σ} {good fine : α → World σ → Prop} {better : β → World σ → Prop}
  {bad worse : Failure → World σ → Prop} {a : Action σ α}

theorem mono (leads : Leads runner w good bad a) (sub : ∀ x w', good x w' → fine x w')
    (wide : ∀ f w', bad f w' → worse f w') : Leads runner w fine worse a :=
  ⟨fun ran => sub _ _ (leads.well ran), fun ran => wide _ _ (leads.failed ran)⟩

theorem and (first : Leads runner w good bad a) (second : Leads runner w fine worse a) :
    Leads runner w (fun x w' => good x w' ∧ fine x w') (fun f w' => bad f w' ∧ worse f w') a :=
  ⟨fun ran => ⟨first.well ran, second.well ran⟩, fun ran => ⟨first.failed ran, second.failed ran⟩⟩

-- An action of which it is known what it does.
theorem of_run {x : α} {middle : World σ} (ran : a.run runner w = (.ok x, middle)) (fit : good x middle) :
    Leads runner w good bad a := by
  refine ⟨fun same => ?_, fun same => ?_⟩
  · rw [ran] at same
    cases same
    exact fit
  · rw [ran] at same
    cases same

theorem of_failed {f : Failure} {middle : World σ} (ran : a.run runner w = (.error f, middle)) (fit : bad f middle) :
    Leads runner w good bad a := by
  refine ⟨fun same => ?_, fun same => ?_⟩
  · rw [ran] at same
    cases same
  · rw [ran] at same
    cases same
    exact fit

-- An action that goes on as another one does from elsewhere.
theorem of_same {b : Action σ α} {middle : World σ} (same : a.run runner w = b.run runner middle)
    (leads : Leads runner middle good bad b) : Leads runner w good bad a :=
  ⟨fun ran => leads.well (same ▸ ran), fun ran => leads.failed (same ▸ ran)⟩

theorem value {x : α} (fit : good x w) : Leads runner w good bad (pure x : Action σ α) :=
  of_run (run_pure x) fit

theorem failure {f : Failure} (fit : bad f w) : Leads runner w good bad (fail f : Action σ α) := by
  refine ⟨fun ran => ?_, fun ran => ?_⟩
  · cases ran
  · cases ran
    exact fit

theorem bind {f : α → Action σ β} (first : Leads runner w good bad a)
    (rest : ∀ x middle, good x middle → Leads runner middle better bad (f x)) :
    Leads runner w better bad (a >>= f) := by
  refine ⟨fun ran => ?_, fun ran => ?_⟩
  · obtain ⟨x, middle, begun, ended⟩ := bind_parts ran
    exact (rest x middle (first.well begun)).well ended
  · rw [run_bind] at ran
    cases begun : a.run runner w with
    | mk result middle =>
      rw [begun] at ran
      cases result with
      | error e =>
        cases ran
        exact first.failed begun
      | ok x => exact (rest x middle (first.well begun)).failed ran

-- What follows an action that never ends well is never begun.
theorem cut {f : α → Action σ β} (first : Leads runner w (fun _ _ => False) bad a) :
    Leads runner w better bad (a >>= f) := first.bind fun _ _ never => never.elim

theorem now {f : World σ → Action σ β} (rest : Leads runner w better bad (f w)) :
    Leads runner w better bad (get >>= f) :=
  ⟨fun ran => rest.well (by rwa [bind_ok run_get] at ran),
    fun ran => rest.failed (by rwa [bind_ok run_get] at ran)⟩

theorem noted {level : Level} {part message : String} {f : Unit → Action σ β}
    (rest : Leads runner (hear ⟨level, part, message⟩ w) better bad (f ())) :
    Leads runner w better bad (note level part message >>= f) :=
  ⟨fun ran => rest.well (note_parts ran),
    fun ran => rest.failed (by rwa [bind_ok (run_note level part message)] at ran)⟩

theorem onDisk {a : DiskAction α}
    (ends : ∀ x d', a.run.run w.disk = (.ok x, d') → good x { w with disk := d' })
    (fails : ∀ e d', a.run.run w.disk = (.error e, d') → bad (.file e) { w with disk := d' }) :
    Leads runner w good bad (Action.onDisk a) := by
  cases done : a.run.run w.disk with
  | mk result d' =>
    refine ⟨fun ran => ?_, fun ran => ?_⟩
    · rw [run_onDisk, done] at ran
      cases result <;> cases ran
      exact ends _ _ done
    · rw [run_onDisk, done] at ran
      cases result <;> cases ran
      exact fails _ _ done

-- The world after a call, whatever the reply to it was.
def asked (runner : Git.Runner σ) (c : Git.Call) (w : World σ) : World σ :=
  { w with
    git := (runner c w.git w.disk).2.1
    disk := (runner c w.git w.disk).2.2
    calls := c :: w.calls }

theorem callGit {c : Git.Call} {good : String → World σ → Prop}
    (ends : ∀ text, (runner c w.git w.disk).1 = .output text → good text (asked runner c w))
    (fails : ∀ f, bad f (asked runner c w)) :
    Leads runner w good bad (Action.callGit c) := by
  refine ⟨fun ran => ?_, fun ran => ?_⟩
  · obtain ⟨git, disk, replied, rfl⟩ := callGit_parts ran
    have after := ends _ (congrArg Prod.fst replied)
    unfold asked at after
    rwa [replied] at after
  · rw [run_callGit] at ran
    have after := congrArg Prod.snd ran
    dsimp only at after
    rw [← after]
    exact fails _

theorem tryCatch {handler : Failure → Action σ α} (tried : Leads runner w good bad a)
    (caught : ∀ f middle, bad f middle → Leads runner middle good worse (handler f)) :
    Leads runner w good worse (MonadExcept.tryCatch a handler) := by
  cases begun : a.run runner w with
  | mk result middle =>
    cases result with
    | ok x =>
      have whole : (MonadExcept.tryCatch a handler).run runner w = (.ok x, middle) := by
        rw [run_tryCatch, begun]
      exact of_run whole (tried.well begun)
    | error f =>
      have whole : (MonadExcept.tryCatch a handler).run runner w = (handler f).run runner middle := by
        rw [run_tryCatch, begun]
      have handled := caught f middle (tried.failed begun)
      exact ⟨fun ran => handled.well (whole ▸ ran), fun ran => handled.failed (whole ▸ ran)⟩

end Leads
end InlineProject
