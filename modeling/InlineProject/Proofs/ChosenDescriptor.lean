import InlineProject.Proofs.ExpansionRun
/-!
Which comment becomes the project. The comments at the head of a file are tried in order, and the
next one is tried only where the system or the version control program has cut the last one short.
-/

namespace InlineProject.Expansion

open InlineProject.Action

variable {σ : Type} {runner : Git.Runner σ} {w w' : World σ} {e : Expansion}
  {source output : Path} {u : Source.Unit} {d : Source.Node}

-- The expansion of `d` from `w` has handed over the project that `d` describes and a source without
-- `d`, has ended with an outcome, and the world is `w'`.
def Commits (e : Expansion) (runner : Git.Runner σ) (source output : Path) (u : Source.Unit)
    (d : Source.Node) (w : World σ) (o : Outcome) (w' : World σ) : Prop :=
  ∃ h reached, e.ReachesSource runner source output u d w h reached ∧
    e.normalizer.normalize (Descriptor.ofComment d.text) = .ok h.xml ∧
    (∀ n ∈ h.kept.nodes, n ∈ u.nodes ∧ n.place ≠ d.place) ∧
    (e.deliver source (output.join source.stem) h.repository h.projectFile h.kept).run runner
      reached = (.ok o, w')

theorem reaches_described {h : Handed} (reached : e.ReachesSource runner source output u d w h w') :
    e.normalizer.normalize (Descriptor.ofComment d.text) = .ok h.xml := by
  obtain ⟨_, _, _, _, described, _⟩ := reached
  exact projectXml_parts described

theorem reaches_lacks {h : Handed} (reached : e.ReachesSource runner source output u d w h w') :
    ∀ n ∈ h.kept.nodes, n ∈ u.nodes ∧ n.place ≠ d.place := by
  rw [kept_of_reaches reached]
  intro n kept
  have withoutComment := Source.Unit.without_nodes_subset kept
  exact ⟨Source.Unit.without_nodes_subset withoutComment,
    Source.Unit.without_place_ne withoutComment (List.mem_singleton.mpr rfl)⟩

theorem expandComment_commits {c : Commit}
    (ran : (e.expandComment source output u d).run runner w = (.ok (.committed c), w')) :
    e.Commits runner source output u d w (.committed c) w' := by
  obtain ⟨h, reached, reaches, delivered⟩ := expandComment_parts ran
  exact ⟨h, reached, reaches, reaches_described reaches, reaches_lacks reaches, delivered⟩

-- The comment of the commit is the first whose expansion was not cut short: those before it are the
-- failed ones, and those behind it are not tried.
theorem commit_of_first_unfailed {parse : String → Source.Unit} {file : Path} {asked : Option Path}
    {o : Outcome} {c : Commit}
    (ran : (e.processFileBy parse file asked).run runner w = (.ok o, w'))
    (returned : o.commit = some c) :
    ∃ text output failed d rest middle expanded,
      textAt (opened (file.resolve e.here) w).disk (file.resolve e.here) = .ok text ∧
      (parse text).descriptorComments = failed ++ d :: rest ∧
      Failing e runner (file.resolve e.here) output (parse text) (opened (file.resolve e.here) w)
        failed middle ∧
      e.Commits runner (file.resolve e.here) output (parse text) d middle o expanded ∧
      w' = hear ⟨.info, part, "Processed " ++ (file.resolve e.here).toString⟩ expanded := by
  have handled := handled_of_commit ran returned
  obtain ⟨text, read, processed⟩ := processFileBy_parts ran handled
  obtain ⟨output, failed, d, rest, middle, expanded, _, split, failing, one, ended⟩ :=
    processUnit_parts processed handled
  have shape : o = .committed c := by
    obtain ⟨_, _⟩ := o
    cases handled
    cases returned
    rfl
  subst shape
  exact ⟨text, output, failed, d, rest, middle, expanded, read, split, failing,
    expandComment_commits one, ended⟩

/-! ### A failure before the second comment -/

-- Answers every call but the first one, which it judges to have failed.
def failingOnce : Git.Runner Bool := fun _ failed d =>
  if failed then (.output "c1", failed, d) else (.failed (.code 1) none, true, d)

def twoDescriptors : String :=
  "/// <Project Sdk=\"A\" />\n\n/// <Project Sdk=\"B\" />\nclass Tool { }\n"

def atWork : Expansion := ⟨.default ⟨.root, ["work"]⟩, ⟨.root, ["work"]⟩⟩

def twoDescriptorsAtWork : World Bool where
  disk := ⟨[(["work"], .directory), (["work", "Tool.cs"], .file twoDescriptors.toUTF8)]⟩
  now := default
  git := false
  calls := []
  journal := none
  console := []
  registry := .empty none

def toolFile : Path := ⟨.here, ["Tool.cs"]⟩

theorem commit_of_first_unfailed_failingOnce :
    ∃ w', (atWork.processFileBy Source.Unit.ofString toolFile none).run failingOnce
        twoDescriptorsAtWork = (.ok (.committed ⟨"c1", "c1"⟩), w') ∧
      ∃ text output failed d rest middle expanded,
        textAt (opened (toolFile.resolve atWork.here) twoDescriptorsAtWork).disk
          (toolFile.resolve atWork.here) = .ok text ∧
        (Source.Unit.ofString text).descriptorComments = failed ++ d :: rest ∧
        Failing atWork failingOnce (toolFile.resolve atWork.here) output
          (Source.Unit.ofString text) (opened (toolFile.resolve atWork.here) twoDescriptorsAtWork)
          failed middle ∧
        atWork.Commits failingOnce (toolFile.resolve atWork.here) output
          (Source.Unit.ofString text) d middle (.committed ⟨"c1", "c1"⟩) expanded ∧
        w' = hear ⟨.info, part, "Processed " ++ (toolFile.resolve atWork.here).toString⟩
          expanded := by
  have ended : ((atWork.processFileBy Source.Unit.ofString toolFile none).run failingOnce
      twoDescriptorsAtWork).1 = .ok (.committed ⟨"c1", "c1"⟩) := by decide +kernel
  have ran := ok_of_result ended
  exact ⟨_, ran, commit_of_first_unfailed ran rfl⟩

-- The first comment at the head describes a project of kind A. The project of the commit is of kind
-- B, though: the repository could not be made for the first comment, and it was for the second.
theorem commit_of_second_comment :
    ((Source.Unit.ofString twoDescriptors).descriptorComments.head?.map fun d =>
      atWork.normalizer.normalize (Descriptor.ofComment d.text))
        = some (.ok "<Project Sdk=\"A\" />") ∧
    ((atWork.processFile toolFile none).run failingOnce twoDescriptorsAtWork).1
      = .ok (.committed ⟨"c1", "c1"⟩) ∧
    ((atWork.processFile toolFile none).run failingOnce twoDescriptorsAtWork).2.disk.item?
      ["work", "Tool", "Tool.csproj"] = some (.file "<Project Sdk=\"B\" />".toUTF8) := by
  refine ⟨?_, ?_, ?_⟩
  · decide +kernel
  · decide +kernel
  · decide +kernel

end InlineProject.Expansion
