import InlineProject.Proofs.RunSteps
/-!
What a run leaves of the registry. However it ends, only the project of its own source may have gone from the
registry or come into it; that goes for the registry of the run and for the file that keeps it.
-/

namespace InlineProject

open InlineProject.Action InlineProject.Git

namespace Registry

variable {r : Registry} {base name : Text} {project : Path} {before after : Text → Option RegisteredProject}

/-! ### What a registry lists -/

def lookup (entries : List (Text × RegisteredProject)) (name : Text) : Option RegisteredProject :=
  (entries.find? fun (other, _) => other = name).map (·.2)

-- What the file at the place of a store lists; where there is no file, nothing.
def listed (d : Disk) (store : Path) : Except LoadError (List (Text × RegisteredProject)) :=
  match d.file? store.place with
  | some content => entriesOfBytes content
  | none => .ok []

-- All is as before but for two names: the project of the one may have gone, and that of the other may have been
-- registered.
def Spared (base : Text) (project : Path) (before after : Text → Option RegisteredProject) : Prop :=
  ∀ name, after name = before name ∨ (name = base ∧ after name = none) ∨
    (name = Text.ofString project.stem ∧ ∃ moment, after name =
      some ⟨Text.ofString project.stem, Text.ofString project.toString, momentText moment⟩)

theorem spared_refl : Spared base project before before := fun _ => .inl rfl

theorem find?_remove : (r.remove base).2.find? name = if name = base then none else r.find? name := by
  unfold remove
  cases there : (r.find? base).isSome with
  | false =>
    have absent : r.find? base = none := by
      rwa [Option.isSome_eq_false_iff, Option.isNone_iff_eq_none] at there
    rw [if_neg Bool.false_ne_true]
    split
    · rename_i same
      rw [same, absent]
    · rfl
  | true =>
    rw [if_pos rfl]
    unfold find?
    dsimp only
    rw [List.find?_filter]
    by_cases same : name = base
    · have nobody : (r.entries.find? fun entry =>
          decide (decide (entry.1 ≠ base) = true ∧ decide (entry.1 = name) = true)) = none := by
        refine List.find?_eq_none.mpr fun entry _ both => ?_
        obtain ⟨other, here⟩ := of_decide_eq_true both
        exact of_decide_eq_true other ((of_decide_eq_true here).trans same)
      rw [if_pos same]
      exact congrArg (Option.map Prod.snd) nobody
    · have alike : (fun entry : Text × RegisteredProject =>
          decide (decide (entry.1 ≠ base) = true ∧ decide (entry.1 = name) = true))
          = fun entry => decide (entry.1 = name) := by
        funext entry
        refine decide_eq_decide.mpr ⟨fun both => of_decide_eq_true both.2, fun here => ?_⟩
        exact ⟨decide_eq_true fun back => same (here.symm.trans back), decide_eq_true here⟩
      rw [if_neg same]
      exact congrArg (fun test => (r.entries.find? test).map Prod.snd) alike

theorem Spared.evict (spared : Spared base project before r.find?) :
    Spared base project before (r.remove base).2.find? := by
  intro name
  rw [find?_remove]
  by_cases same : name = base
  · exact .inr (.inl ⟨same, if_pos same⟩)
  · rw [if_neg same]
    exact spared name

theorem Spared.enrol {σ : Type} {w : World σ} (spared : Spared base project before w.registry.find?) :
    Spared base project before (registered w project).find? := by
  intro name
  unfold registered
  rw [find?_put]
  by_cases same : Text.ofString project.stem = name
  · refine .inr (.inr ⟨same.symm, w.now, ?_⟩)
    rw [if_pos same]
    rfl
  · rw [if_neg same]
    exact spared name

end Registry

/-! ### Step by step -/

namespace Expansion

open InlineProject.Registry

variable {σ : Type} {runner : Runner σ} {e : Expansion} {source directory file store : Path} {names : List String}
  {w middle w' : World σ} {before : Text → Option RegisteredProject}

-- The projects of all other sources are spared.
abbrev Spares (e : Expansion) (source directory : Path) (before after : Text → Option RegisteredProject) : Prop :=
  Spared (Text.ofString source.stem) (directory.join (e.projectName source)) before after

theorem step_spares (step : Step (e.leeway source directory names) runner w w')
    (spared : e.Spares source directory before w.registry.find?) :
    e.Spares source directory before w'.registry.find? := by
  cases step with
  | hear n => rwa [hear_registry]
  | grow _ _ => exact spared
  | write _ _ => exact spared
  | take _ _ => exact spared
  | call _ _ _ => exact spared
  | evict => exact spared.evict
  | enrol => exact spared.enrol
  | save _ _ => exact spared

-- The file of the registry is its own: it is none of the project and not the journal, and the program for version
-- control leaves it alone.
structure Private (e : Expansion) (runner : Runner σ) (source directory store : Path) (w : World σ) : Prop where
  path : w.registry.path = some store
  silent : ∀ j p, w.journal = some j → j.file = some p → p.place ≠ store.place
  aside : ∀ name ∈ e.possibleNames source, (directory.join name).place ≠ store.place
  left : ∀ c g d, c.directory = directory → (runner c g d).2.2.file? store.place = d.file? store.place

-- What the file of the registry lists has been spared as well.
structure Guards (e : Expansion) (runner : Runner σ) (source directory store : Path)
    (before : Text → Option RegisteredProject) (w : World σ) : Prop where
  own : Private e runner source directory store w
  proper : Proper w.registry.entries
  memory : e.Spares source directory before w.registry.find?
  stored : ∃ entries, listed w.disk store = .ok entries ∧ e.Spares source directory before (lookup entries)

theorem listed_congr {d d' : Disk} (same : d'.file? store.place = d.file? store.place) :
    listed d' store = listed d store := by
  unfold listed
  rw [same]

-- A step that does not touch the registry is none for its file either.
theorem Guards.congr (guards : Guards e runner source directory store before w)
    (registry : w'.registry = w.registry) (journal : w'.journal = w.journal)
    (content : w'.disk.file? store.place = w.disk.file? store.place) :
    Guards e runner source directory store before w' := by
  obtain ⟨⟨path, silent, aside, left⟩, proper, memory, stored⟩ := guards
  refine ⟨⟨?_, ?_, aside, left⟩, ?_, ?_, ?_⟩
  · rwa [registry]
  · rwa [journal]
  · rwa [registry]
  · rwa [registry]
  · rwa [listed_congr content]

theorem steps_spares (steps : Steps (e.leeway source directory names) runner w w')
    (spared : e.Spares source directory before w.registry.find?) :
    e.Spares source directory before w'.registry.find? :=
  steps.keeps (fun spared step => step_spares step spared) spared

-- Nothing has happened but that notes were taken.
structure Hushed (w w' : World σ) : Prop where
  registry : w'.registry = w.registry
  journal : w'.journal = w.journal
  files : ∀ q, (∀ j p, w.journal = some j → j.file = some p → p.place ≠ q) →
    w'.disk.file? q = w.disk.file? q

theorem Hushed.trans (first : Hushed w middle) (second : Hushed middle w') : Hushed w w' := by
  refine ⟨second.registry.trans first.registry, second.journal.trans first.journal, fun q silent => ?_⟩
  refine (second.files q ?_).trans (first.files q silent)
  rwa [first.journal]

def shelf : Registry where
  path := some registryAtBench
  entries :=
    [(Text.ofString "Saw", ⟨Text.ofString "Saw", Text.ofString "/Saw", []⟩),
      (Text.ofString "Tool", ⟨Text.ofString "Tool", Text.ofString "/Tool", []⟩)]
  changed := false

-- A program that fails to tell what is staged.
def halting : Runner Memory := fun c g d =>
  if c.arguments.tail.head? = some "diff" then (.failed (.code 1) none, g, d) else Memory.runner c g d

end Expansion
end InlineProject
