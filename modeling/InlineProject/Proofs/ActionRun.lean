import InlineProject.World
/-!
What a run of an action does, step by step. A run that ends well has run its parts well one after
another; a part that fails ends the run where it stands.
-/

namespace InlineProject

instance decidableEqExcept {ε α : Type} [DecidableEq ε] [DecidableEq α] :
    DecidableEq (Except ε α)
  | .ok a, .ok b => decidable_of_iff (a = b) ⟨congrArg Except.ok, fun same => Except.ok.inj same⟩
  | .error a, .error b =>
      decidable_of_iff (a = b) ⟨congrArg Except.error, fun same => Except.error.inj same⟩
  | .ok _, .error _ => .isFalse nofun
  | .error _, .ok _ => .isFalse nofun

namespace Action

variable {σ α β : Type} {runner : Git.Runner σ} {w middle w' : World σ}

theorem run_bind (a : Action σ α) (f : α → Action σ β) :
    (a >>= f).run runner w = match a.run runner w with
      | (.ok x, middle) => (f x).run runner middle
      | (.error e, middle) => (.error e, middle) := by
  change (ExceptT.bindCont (fun x => f x runner) (a.run runner w).1).run (a.run runner w).2 = _
  rcases a.run runner w with ⟨result, middle⟩
  cases result with
  | ok x => rfl
  | error e => rfl

theorem run_pure (x : α) : (pure x : Action σ α).run runner w = (.ok x, w) := rfl

theorem run_get : (get : Action σ (World σ)).run runner w = (.ok w, w) := rfl

theorem run_modify (f : World σ → World σ) :
    (modify f : Action σ Unit).run runner w = (.ok (), f w) := rfl

theorem run_note (level : Level) (part message : String) :
    (note level part message).run runner w = (.ok (), hear ⟨level, part, message⟩ w) := rfl

theorem run_tryCatch (a : Action σ α) (handler : Failure → Action σ α) :
    (tryCatch a handler).run runner w = match a.run runner w with
      | (.ok x, middle) => (.ok x, middle)
      | (.error e, middle) => (handler e).run runner middle := by
  have unfolded : (tryCatch a handler).run runner w
      = StateT.run (ExceptT.run (ExceptT.tryCatch (a runner) fun e => handler e runner)) w := rfl
  rw [unfolded]
  cases ran : a.run runner w with
  | mk result middle =>
    have ran : a runner w = (result, middle) := ran
    simp only [ExceptT.tryCatch, ExceptT.run, ExceptT.mk, StateT.run, bind, StateT.bind, ran]
    cases result with
    | ok x => rfl
    | error e => rfl

theorem run_onDisk (a : DiskAction α) :
    (onDisk a).run runner w = match a.run.run w.disk with
      | (.ok x, disk) => (.ok x, { w with disk := disk })
      | (.error e, disk) => (.error (.file e), { w with disk := disk }) := by
  unfold onDisk
  rw [run_bind, run_get]
  dsimp only
  rcases a.run.run w.disk with ⟨result, disk⟩
  cases result with
  | ok x => rfl
  | error e => rfl

-- What a reply of the version control program means for the action that called it.
def replied (c : Git.Call) : Git.Reply → Except Failure String
  | .output text => .ok text
  | .failed status complaint => .error (.git ⟨c.arguments, status, complaint⟩)
  | .unavailable e => .error (.file e)
  | .unreadable e => .error (.encoding e)

theorem run_callGit (c : Git.Call) :
    (callGit c).run runner w = match runner c w.git w.disk with
      | (reply, git, disk) =>
          (replied c reply, { w with git := git, disk := disk, calls := c :: w.calls }) := by
  unfold callGit
  rw [run_bind]
  change Action.run (get >>= _) runner w = _
  rw [run_bind, run_get]
  dsimp only
  rcases runner c w.git w.disk with ⟨reply, git, disk⟩
  cases reply <;> rfl

/-! ### Notes -/

-- Nothing but the disk and the console hears of a note.
theorem hear_frame {n : Note} :
    hear n w = { w with
      disk := (hear n w).disk
      console := (hear n w).console } := by
  unfold hear
  split
  · rfl
  · split <;> rfl

theorem hear_git {n : Note} : (hear n w).git = w.git := by rw [hear_frame]

theorem hear_calls {n : Note} : (hear n w).calls = w.calls := by rw [hear_frame]

theorem hear_now {n : Note} : (hear n w).now = w.now := by rw [hear_frame]

theorem hear_journal {n : Note} : (hear n w).journal = w.journal := by rw [hear_frame]

theorem hear_registry {n : Note} : (hear n w).registry = w.registry := by rw [hear_frame]

/-! ### Runs that end well -/

theorem ok_of_result {a : Action σ α} {x : α} (ended : (a.run runner w).1 = .ok x) :
    a.run runner w = (.ok x, (a.run runner w).2) := by
  rw [← ended]

theorem error_of_result {a : Action σ α} {f : Failure} (ended : (a.run runner w).1 = .error f) :
    a.run runner w = (.error f, (a.run runner w).2) := by
  rw [← ended]

theorem bind_ok {a : Action σ α} {f : α → Action σ β} {x : α}
    (first : a.run runner w = (.ok x, middle)) :
    (a >>= f).run runner w = (f x).run runner middle := by
  rw [run_bind, first]

theorem bind_error {a : Action σ α} {f : α → Action σ β} {e : Failure}
    (first : a.run runner w = (.error e, middle)) :
    (a >>= f).run runner w = (.error e, middle) := by
  rw [run_bind, first]

theorem bind_parts {a : Action σ α} {f : α → Action σ β} {y : β}
    (ran : (a >>= f).run runner w = (.ok y, w')) :
    ∃ x middle, a.run runner w = (.ok x, middle) ∧ (f x).run runner middle = (.ok y, w') := by
  rw [run_bind] at ran
  cases first : a.run runner w with
  | mk result middle =>
    rw [first] at ran
    cases result with
    | ok x => exact ⟨x, middle, rfl, ran⟩
    | error e => cases ran

-- Passes over a note, which never fails.
theorem note_parts {level : Level} {part message : String} {f : Unit → Action σ β} {y : β}
    (ran : (note level part message >>= f).run runner w = (.ok y, w')) :
    (f ()).run runner (hear ⟨level, part, message⟩ w) = (.ok y, w') := by
  rwa [bind_ok (run_note level part message)] at ran

theorem pure_parts {x y : α} (ran : (pure x : Action σ α).run runner w = (.ok y, w')) :
    x = y ∧ w = w' := by
  rw [run_pure] at ran
  cases ran
  exact ⟨rfl, rfl⟩

-- A note before the end.
theorem note_pure_parts {level : Level} {part message : String} {x y : α}
    (ran : (note level part message >>= fun _ => pure x).run runner w = (.ok y, w')) :
    x = y ∧ hear ⟨level, part, message⟩ w = w' := by
  have ended := note_parts ran
  exact pure_parts ended

theorem onDisk_parts {a : DiskAction α} {x : α}
    (ran : (onDisk a).run runner w = (.ok x, w')) :
    ∃ disk, a.run.run w.disk = (.ok x, disk) ∧ w' = { w with disk := disk } := by
  rw [run_onDisk] at ran
  cases done : a.run.run w.disk with
  | mk result disk =>
    rw [done] at ran
    cases result with
    | ok y => cases ran; exact ⟨disk, rfl, rfl⟩
    | error e => cases ran

theorem callGit_parts {c : Git.Call} {text : String}
    (ran : (callGit c).run runner w = (.ok text, w')) :
    ∃ git disk, runner c w.git w.disk = (.output text, git, disk) ∧
      w' = { w with git := git, disk := disk, calls := c :: w.calls } := by
  rw [run_callGit] at ran
  rcases answered : runner c w.git w.disk with ⟨reply, git, disk⟩
  rw [answered] at ran
  cases reply <;> cases ran
  exact ⟨git, disk, rfl, rfl⟩

end Action
end InlineProject
