import InlineProject.Proofs.ActionEnds
/-!
Two runs side by side, each in a world of its own. They are alike if who goes on from there cannot tell them apart:
both end well with the same, or both fail.
-/

namespace InlineProject

open InlineProject.Action

variable {σ α β : Type}

-- Two failures are alike if both are passed over or neither is.
inductive Alike (good : α → World σ → World σ → Prop) (bad : World σ → World σ → Prop) :
    Except Failure α × World σ → Except Failure α × World σ → Prop where
  | well {x : α} {w w' : World σ} (fit : good x w w') : Alike good bad (.ok x, w) (.ok x, w')
  | failed {f f' : Failure} {w w' : World σ} (same : f'.isTransient = f.isTransient) (fit : bad w w') :
      Alike good bad (.error f, w) (.error f', w')

-- Both ends of both runs are related in one way.
abbrev Parallel (R : World σ → World σ → Prop) (first second : Except Failure α × World σ) : Prop :=
  Alike (fun _ => R) R first second

-- One action in two worlds.
abbrev Along (R : World σ → World σ → Prop) (runner : Git.Runner σ) (w w' : World σ) (a : Action σ α) : Prop :=
  Parallel R (a.run runner w) (a.run runner w')

namespace Alike

variable {runner : Git.Runner σ} {w w' : World σ} {good fine : α → World σ → World σ → Prop}
  {better : β → World σ → World σ → Prop} {bad worse : World σ → World σ → Prop}
  {first second : Except Failure α × World σ}

theorem mono (alike : Alike good bad first second) (sub : ∀ x w w', good x w w' → fine x w w')
    (wide : ∀ w w', bad w w' → worse w w') : Alike fine worse first second := by
  cases alike with
  | well fit => exact .well (sub _ _ _ fit)
  | failed same fit => exact .failed same (wide _ _ fit)

-- Where the one ends well so does the other.
theorem ended {x : α} (alike : Alike good bad (.ok x, w) second) : ∃ w', second = (.ok x, w') ∧ good x w w' := by
  cases alike with
  | well fit => exact ⟨_, rfl, fit⟩

theorem value {x : α} (fit : good x w w') :
    Alike good bad ((pure x : Action σ α).run runner w) ((pure x : Action σ α).run runner w') := .well fit

theorem failure {f f' : Failure} (same : f'.isTransient = f.isTransient) (fit : bad w w') :
    Alike good bad ((fail f : Action σ α).run runner w) ((fail f' : Action σ α).run runner w') := .failed same fit

theorem bind {a b : Action σ α} {f g : α → Action σ β} (begun : Alike good bad (a.run runner w) (b.run runner w'))
    (rest : ∀ x v v', good x v v' → Alike better bad ((f x).run runner v) ((g x).run runner v')) :
    Alike better bad ((a >>= f).run runner w) ((b >>= g).run runner w') := by
  rw [run_bind, run_bind]
  generalize a.run runner w = left, b.run runner w' = right at begun
  cases begun with
  | well fit => exact rest _ _ _ fit
  | failed same fit => exact .failed same fit

theorem now {f g : World σ → Action σ β}
    (rest : Alike better bad ((f w).run runner w) ((g w').run runner w')) :
    Alike better bad ((get >>= f).run runner w) ((get >>= g).run runner w') := by
  rwa [bind_ok run_get, bind_ok run_get]

-- What is noted need not be the same.
theorem noted {level level' : Level} {part part' message message' : String} {f g : Unit → Action σ β}
    (rest : Alike better bad ((f ()).run runner (hear ⟨level, part, message⟩ w))
      ((g ()).run runner (hear ⟨level', part', message'⟩ w'))) :
    Alike better bad ((note level part message >>= f).run runner w)
      ((note level' part' message' >>= g).run runner w') := by
  rwa [bind_ok (run_note _ _ _), bind_ok (run_note _ _ _)]

theorem tryCatch {a b : Action σ α} {handler other : Failure → Action σ α}
    (tried : Alike good bad (a.run runner w) (b.run runner w'))
    (caught : ∀ f f' v v', f'.isTransient = f.isTransient → bad v v' →
      Alike good worse ((handler f).run runner v) ((other f').run runner v')) :
    Alike good worse ((MonadExcept.tryCatch a handler).run runner w)
      ((MonadExcept.tryCatch b other).run runner w') := by
  rw [run_tryCatch, run_tryCatch]
  generalize a.run runner w = left, b.run runner w' = right at tried
  cases tried with
  | well fit => exact .well fit
  | failed same fit => exact caught _ _ _ _ same fit

/-! ### The disk and the version control program -/

variable {R : World σ → World σ → Prop}

theorem onDisk {a : DiskAction α} (same : (a.run.run w'.disk).1 = (a.run.run w.disk).1)
    (fit : R { w with disk := (a.run.run w.disk).2 } { w' with disk := (a.run.run w'.disk).2 }) :
    Along R runner w w' (Action.onDisk a) := by
  unfold Along
  rw [run_onDisk, run_onDisk]
  generalize a.run.run w.disk = left, a.run.run w'.disk = right at same fit ⊢
  obtain ⟨result, d⟩ := left
  obtain ⟨result', d'⟩ := right
  obtain rfl : result' = result := same
  cases result' with
  | ok x => exact .well fit
  | error e => exact .failed rfl fit

theorem callGit {c : Git.Call} (same : (runner c w'.git w'.disk).1 = (runner c w.git w.disk).1)
    (fit : R (Leads.asked runner c w) (Leads.asked runner c w')) :
    Along R runner w w' (Action.callGit c) := by
  unfold Leads.asked at fit
  unfold Along
  rw [run_callGit, run_callGit]
  generalize runner c w.git w.disk = left, runner c w'.git w'.disk = right at same fit ⊢
  obtain ⟨reply, g, d⟩ := left
  obtain ⟨reply', g', d'⟩ := right
  obtain rfl : reply' = reply := same
  cases reply' with
  | output text => exact .well fit
  | failed status complaint => exact .failed rfl fit
  | unavailable e => exact .failed rfl fit
  | unreadable e => exact .failed rfl fit

end Alike
end InlineProject
