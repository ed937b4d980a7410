import InlineProject.Proofs.ContainedRun
/-!
Where the directory of a project lies, and what a run does to the files outside of it and to the source that it
reads. The base name of a source may be one or two dots; such a project has no directory of its own.
-/

namespace InlineProject

open InlineProject.Git

variable {σ : Type} {p : Path} {name : String}

/-! ### Names below a directory -/

namespace Path

instance (name : String) : Decidable (Plain name) := inferInstanceAs (Decidable (_ ∧ _ ∧ _))

theorem ofString_plain (plain : Plain name) : ofString name = ⟨.here, [name]⟩ := by
  have text : toString ⟨.here, [name]⟩ = name := by
    change "" ++ "/".intercalate [name] = name
    rw [String.intercalate_singleton, String.empty_append]
  have listed : ∀ n ∈ [name], Plain n := by
    intro n member
    rwa [List.mem_singleton.mp member]
  have read := ofString_toString listed
  rwa [text] at read

theorem join_relative (relative : (ofString name).anchor = .here) :
    (p.join name).place = endFrom p.place (ofString name).parts := by
  unfold join
  rw [append_relative (by unfold isAbsolute; rw [relative]; rfl)]
  exact endFrom_append _ _ _

theorem join_plain (plain : Plain name) (down : name ≠ parentName) :
    (p.join name).place = p.place ++ [name] := by
  have read := ofString_plain plain
  rw [join_relative (by rw [read]), read]
  change stepFrom p.place name = _
  unfold stepFrom
  rw [if_neg down]

theorem join_empty : (p.join "").place = p.place := join_relative rfl

theorem join_here : (p.join hereName).place = p.place := join_relative rfl

theorem join_parent : (p.join parentName).place = p.place.dropLast := join_relative rfl

-- A place is not named by steps upwards.
theorem parentName_notMem_endFrom {start : Place} {names : List String} (down : parentName ∉ start) :
    parentName ∉ endFrom start names := by
  induction names generalizing start with
  | nil => exact down
  | cons n rest ih =>
    refine ih ?_
    unfold stepFrom
    split
    · exact fun member => down (List.mem_of_mem_dropLast member)
    · rename_i other
      rw [List.mem_append, List.mem_singleton, not_or]
      exact ⟨down, Ne.symm other⟩

theorem resolve_notMem {here : Path} : parentName ∉ (p.resolve here).parts := by
  rw [resolve_parts_eq]
  exact parentName_notMem_endFrom List.not_mem_nil

theorem stem_slash (plain : '/' ∉ p.name.toList) : '/' ∉ p.stem.toList := by
  unfold stem splitName
  dsimp only
  split
  · exact plain
  · rw [String.toList_ofList]
    exact fun member => plain (List.mem_of_mem_take member)

theorem stem_some (some : p.name ≠ "") : p.stem ≠ "" := by
  unfold stem splitName
  dsimp only
  split
  · exact some
  · rename_i apart
    intro empty
    have none := List.take_eq_nil_iff.mp (String.ofList_eq_empty_iff.mp empty)
    simp only [Bool.or_eq_true, decide_eq_true_eq, not_or] at apart
    rcases none with short | bare
    · exact apart.2 short
    · exact some (String.toList_eq_nil_iff.mp bare)

theorem name_mem (some : p.name ≠ "") : p.name ∈ p.parts := by
  unfold name at some ⊢
  cases last : p.parts.getLast? with
  | none =>
    rw [last] at some
    exact absurd rfl some
  | some n => exact List.mem_of_getLast? last

end Path

theorem below_dropLast {home : Place} : ¬Below home home.dropLast := by
  rintro ⟨leads, other⟩
  refine other ?_
  exact (leads.eq_of_length_le home.dropLast_prefix.length_le).symm

namespace Expansion

open InlineProject.Action

variable {runner : Runner σ} {e : Expansion} {file source output directory : Path}
  {asked : Option Path} {w w' : World σ} {parse : String → Source.Unit} {result : Except Failure Outcome}

-- A source has no name, or one that is a single step down.
theorem source_name (source_is : source = file.resolve e.here) (plain : ∀ n ∈ source.parts, Path.Plain n) :
    source.name = "" ∨ Path.Plain source.name ∧ source.name ≠ Path.parentName := by
  by_cases none : source.name = ""
  · exact .inl none
  · have member := Path.name_mem none
    refine .inr ⟨plain _ member, ?_⟩
    intro up
    rw [up, source_is, Path.resolve_parts_eq] at member
    exact Path.parentName_notMem_endFrom List.not_mem_nil member

-- The project has a directory of its own unless the base name is empty, one dot or two.
theorem directory_below (named : source.name = "" ∨ Path.Plain source.name ∧ source.name ≠ Path.parentName) :
    Below output.place (output.join source.stem).place ↔ source.stem ∉ ["", Path.hereName, Path.parentName] := by
  have slash : '/' ∉ source.stem.toList := by
    refine Path.stem_slash ?_
    rcases named with none | ⟨plain, _⟩
    · rw [none]
      exact List.not_mem_nil
    · exact plain.2.2
  constructor
  · intro below
    rw [List.mem_cons, List.mem_cons, List.mem_singleton, not_or, not_or]
    refine ⟨fun empty => ?_, fun here => ?_, fun up => ?_⟩
    · rw [empty, Path.join_empty] at below
      exact not_below_home below
    · rw [here, Path.join_here] at below
      exact not_below_home below
    · rw [up, Path.join_parent] at below
      exact below_dropLast below
  · intro own
    rw [List.mem_cons, List.mem_cons, List.mem_singleton, not_or, not_or] at own
    rw [Path.join_plain ⟨own.1, own.2.1, slash⟩ own.2.2]
    exact below_append (List.cons_ne_nil _ _)

theorem inside_join (named : name = "" ∨ Path.Plain name ∧ name ≠ Path.parentName) :
    directory.place <+: (directory.join name).place := by
  rcases named with rfl | ⟨plain, down⟩
  · rw [Path.join_empty]
  · rw [Path.join_plain plain down]
    exact List.prefix_append _ _

-- What the repository takes in lies in its directory.
theorem inside_of_relative (absolute : directory.isAbsolute = true)
    (taken : ((Repository.mk directory).relative? (directory.join name)).isSome = true) :
    directory.place <+: (directory.join name).place := by
  obtain ⟨p, relative⟩ := Option.isSome_iff_exists.mp taken
  have clean : (directory.join name).hasNull = false := by
    unfold Repository.relative? at relative
    split at relative
    · cases relative
    · exact Bool.eq_false_iff.mpr ‹_›
  obtain ⟨way, _, ends⟩ := relative_parts absolute (join_absolute absolute) clean relative
  exact ⟨way, ends.symm⟩

/-! ### Outside of the directory -/

-- All calls are made in the directory of the project, and what changes lies in it or is where the journal and
-- the registry are kept. Only the configured names of the project file and of the file for the using directives
-- can lead out of it; then the run fails for good. The directory lies below the output where the base name of the
-- source is a name of its own.
theorem contained_exact
    (confined : ∀ c g d q, ¬c.directory.place <+: q → (runner c g d).2.2.file? q = d.file? q)
    (configured : ∀ p, e.configuration.output = some p → p.isAbsolute = true)
    (source_is : source = file.resolve e.here) (output_is : output = e.outputOf file asked)
    (directory_is : directory = output.join source.stem)
    (plain : ∀ n ∈ source.parts, Path.Plain n)
    (ran : (e.processFileBy parse file asked).run runner w = (result, w')) :
    (∃ more, w'.calls = more ++ w.calls ∧ ∀ c ∈ more, c.directory = directory) ∧
    (∀ q, ¬w.Outlet q → w'.disk.file? q ≠ w.disk.file? q →
      directory.place <+: q ∨
        (∃ f, result = .error f ∧ f.isTransient = false) ∧
        (q = (directory.join (e.projectName source)).place ∨
          q = (directory.join (e.configuration.project.globalUsings ++ source.suffix)).place)) ∧
    (Below output.place directory.place ↔ source.stem ∉ ["", Path.hereName, Path.parentName]) ∧
    (source.stem = Path.hereName → directory.place = output.place) ∧
    (source.stem = Path.parentName → directory.place = output.place.dropLast) := by
  have named := source_name source_is plain
  have absolute : directory.isAbsolute = true := by
    rw [directory_is, output_is]
    exact outputOf_absolute configured
  have confines : (e.projectReach source directory fun q => directory.place <+: q).Confines runner := by
    refine confines_reach fun c g d q here away => confined c g d q ?_
    rwa [here]
  have ends : Ends runner (e.projectReach source directory fun q => directory.place <+: q) w
      (fun _ => True) (e.processFileBy parse file asked) :=
    processFileBy_ends source_is output_is directory_is confines
  refine ⟨(ends.any ran).calls, fun q silent changed => ?_, ?_, fun here => ?_, fun up => ?_⟩
  · -- what is near lies in the directory, so only a lasting failure can have changed anything else
    by_contra outside
    rw [not_or] at outside
    obtain ⟨outside, stopped⟩ := outside
    have apart : ¬(e.projectReach source directory fun q => directory.place <+: q).near q := by
      rintro (inside | ⟨name, _, rfl, taken⟩)
      · exact outside inside
      · exact outside (inside_of_relative absolute taken)
    have far : (∃ f, result = .error f ∧ f.isTransient = false) ∧
        (e.projectReach source directory fun q => directory.place <+: q).far q := by
      cases result with
      | ok o => exact absurd ((ends.well ran).1.files q apart silent) changed
      | error f =>
        rcases ends.failed ran with near | ⟨lasting, far⟩
        · exact absurd (near.files q apart silent) changed
        · refine ⟨⟨f, rfl, lasting⟩, ?_⟩
          by_contra away
          exact changed (far.files q away silent)
    obtain ⟨lasting, inside | ⟨name, listed, rfl⟩⟩ := far
    · exact outside inside
    · simp only [possibleNames, List.mem_cons, List.not_mem_nil, or_false] at listed
      rcases listed with rfl | rfl | rfl | rfl
      · exact stopped ⟨lasting, .inl rfl⟩
      · exact stopped ⟨lasting, .inr rfl⟩
      · exact outside (inside_join named)
      · exact outside (inside_join (.inr (by decide)))
  · rw [directory_is]
    exact directory_below named
  · rw [directory_is, here, Path.join_here]
  · rw [directory_is, up, Path.join_parent]

theorem toolRun_commits : ∃ w',
    (atBench.processFileBy Source.Unit.ofString ⟨.here, ["Tool.cs"]⟩ none).run Memory.runner
      (benchWith toolText []) = (.ok (.committed ⟨"2", "Created AdHoc Project"⟩), w') := by
  have ended : (atBench.toolRun.run Memory.runner (benchWith toolText [])).1
      = .ok (.committed ⟨"2", "Created AdHoc Project"⟩) := by decide +kernel
  exact ⟨_, ok_of_result ended⟩

theorem toolSource_plain : ∀ n ∈ toolSource.parts, Path.Plain n := by
  intro n member
  rcases List.mem_cons.mp member with rfl | member
  · decide
  · rw [List.mem_singleton.mp member]
    decide

theorem bench_outlet {text : String} {more : List (Place × Item)} {q : Place} (kept : (benchWith text more).Outlet q) :
    q = registryAtBench.place := by
  rcases kept with ⟨j, p, heard, _⟩ | ⟨p, path, rfl⟩
  · cases heard
  · rw [← Option.some.inj path]

-- A project beside its source: all calls are made in its directory, and nothing else has changed but the
-- registry.
theorem contained_exact_tool : ∃ w',
    atBench.toolRun.run Memory.runner (benchWith toolText [])
      = (.ok (.committed ⟨"2", "Created AdHoc Project"⟩), w') ∧
    (∀ c ∈ w'.calls, c.directory = ⟨.root, toolHome⟩) ∧
    ∀ q, q ≠ registryAtBench.place → ¬toolHome <+: q →
      w'.disk.file? q = (benchWith toolText []).disk.file? q := by
  obtain ⟨w', ran⟩ := toolRun_commits
  have confined : ∀ c g d q, ¬c.directory.place <+: q →
      (Memory.runner c g d).2.2.file? q = d.file? q :=
    fun _ _ _ _ aside => Disk.file?_congr (Memory.call_aside aside)
  have configured : ∀ p, atBench.configuration.output = some p → p.isAbsolute = true := nofun
  have source_is : toolSource = Path.resolve ⟨.here, ["Tool.cs"]⟩ atBench.here := by decide
  have output_is : (⟨.root, ["work"]⟩ : Path) = atBench.outputOf ⟨.here, ["Tool.cs"]⟩ none := by
    decide
  have directory_is : (⟨.root, toolHome⟩ : Path) = Path.join ⟨.root, ["work"]⟩ toolSource.stem := by
    decide
  obtain ⟨⟨more, called, there⟩, files, _⟩ :=
    contained_exact confined configured source_is output_is directory_is toolSource_plain ran
  refine ⟨w', ran, fun c member => there c ?_, fun q other outside => ?_⟩
  · rw [called] at member
    rcases List.mem_append.mp member with new | old
    · exact new
    · cases old
  · by_contra changed
    rcases files q (fun kept => other (bench_outlet kept)) changed with inside | ⟨⟨f, failed, _⟩, _⟩
    · exact outside inside
    · cases failed

/-! ### The source -/

-- The source is left as it is where it is none of the files of its own project and neither the journal nor the
-- registry is kept in it.
theorem source_untouched
    (leaves : ∀ c g d, c.directory = directory →
      (runner c g d).2.2.file? source.place = d.file? source.place)
    (source_is : source = file.resolve e.here) (output_is : output = e.outputOf file asked)
    (directory_is : directory = output.join source.stem)
    (apart : ∀ name ∈ e.possibleNames source, (directory.join name).place ≠ source.place)
    (silent : ¬w.Outlet source.place)
    (ran : (e.processFileBy parse file asked).run runner w = (result, w')) :
    w'.disk.file? source.place = w.disk.file? source.place := by
  have confines : (e.projectReach source directory fun q => q ≠ source.place).Confines runner := by
    refine confines_reach fun c g d q here same => ?_
    rw [not_not.mp same]
    exact leaves c g d here
  have ends : Ends runner (e.projectReach source directory fun q => q ≠ source.place) w
      (fun _ => True) (e.processFileBy parse file asked) :=
    processFileBy_ends source_is output_is directory_is confines
  refine (ends.any ran).files source.place ?_ silent
  rintro (other | ⟨name, listed, same⟩)
  · exact other rfl
  · exact apart name listed same.symm

theorem source_untouched_tool : ∃ w',
    atBench.toolRun.run Memory.runner (benchWith toolText [])
      = (.ok (.committed ⟨"2", "Created AdHoc Project"⟩), w') ∧
    w'.disk.file? toolSource.place = (benchWith toolText []).disk.file? toolSource.place := by
  obtain ⟨w', ran⟩ := toolRun_commits
  have source_is : toolSource = Path.resolve ⟨.here, ["Tool.cs"]⟩ atBench.here := by decide
  have output_is : (⟨.root, ["work"]⟩ : Path) = atBench.outputOf ⟨.here, ["Tool.cs"]⟩ none := by
    decide
  have directory_is : (⟨.root, toolHome⟩ : Path) = Path.join ⟨.root, ["work"]⟩ toolSource.stem := by
    decide
  have leaves : ∀ c g d, c.directory = ⟨.root, toolHome⟩ →
      (Memory.runner c g d).2.2.file? toolSource.place = d.file? toolSource.place := by
    intro c g d here
    refine Disk.file?_congr (Memory.call_aside ?_)
    rw [here]
    decide
  have apart : ∀ name ∈ atBench.possibleNames toolSource,
      (Path.join ⟨.root, toolHome⟩ name).place ≠ toolSource.place := by decide
  have silent : ¬(benchWith toolText []).Outlet toolSource.place := fun kept =>
    absurd (bench_outlet kept) (by decide)
  exact ⟨w', ran, source_untouched leaves source_is output_is directory_is apart silent ran⟩

end Expansion
end InlineProject
