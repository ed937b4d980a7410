import InlineProject.Descriptor.Normalize
import InlineProject.Proofs.ActionRun
import InlineProject.Proofs.YamlValues
/-!
When the normalizer gives markup. It does so for everything but a document that is of the language and
still cannot be loaded; neither its mode nor its default makes a difference.
-/

namespace InlineProject.Normalizer

-- Once a document is loaded, whatever goes wrong with it leads to the default.
theorem readDocument_of_loaded {n : Normalizer} {cs : List Char} {l : Yaml.Loaded}
    (loaded : Yaml.load cs = .ok l) : ∃ reading, n.readDocument cs = .ok reading := by
  unfold readDocument
  rw [loaded]
  dsimp only
  split
  · exact ⟨_, rfl⟩
  · split
    · exact ⟨_, rfl⟩
    · split
      · exact ⟨_, rfl⟩
      · split
        · exact ⟨_, rfl⟩
        · exact ⟨_, rfl⟩
        · exact ⟨_, rfl⟩

theorem readDocument_of_malformed {n : Normalizer} {cs : List Char} {e : Yaml.Error}
    (failed : Yaml.load cs = .error e) (malformed : e.isMalformed = true) :
    n.readDocument cs = .ok (.unreadable e) := by
  unfold readDocument
  rw [failed]
  exact if_pos malformed

theorem readDocument_of_unloadable {n : Normalizer} {cs : List Char} {e : Yaml.Error}
    (failed : Yaml.load cs = .error e) (unloadable : Yaml.Unloadable cs e) :
    n.readDocument cs = .error e := by
  unfold readDocument
  rw [failed]
  have sincere := Yaml.unloadable_sincere unloadable
  dsimp only
  rw [sincere]
  rfl

-- There is no markup exactly where a text is no markup itself and its loading ends in a failure that
-- the language does not count as one of the text.
theorem normalize_returns_exact (n : Normalizer) (s : String) :
    (∃ xml, n.normalize s = .ok xml) ↔
      (Project.ofMarkup? s.toList).isSome = true ∨
        ∀ e, Yaml.load s.toList = .error e → ¬Yaml.Unloadable s.toList e := by
  unfold normalize read
  cases markup : Project.ofMarkup? s.toList with
  | some root => exact ⟨fun _ => .inl rfl, fun _ => ⟨_, rfl⟩⟩
  | none =>
    dsimp only
    constructor
    · rintro ⟨xml, returned⟩
      right
      intro e failed unloadable
      rw [readDocument_of_unloadable failed unloadable] at returned
      cases returned
    · rintro (impossible | loadable)
      · cases impossible
      · have read : ∃ reading, n.readDocument s.toList = .ok reading := by
          cases loaded : Yaml.load s.toList with
          | ok l => exact readDocument_of_loaded loaded
          | error e =>
            rcases Yaml.load_failure loaded with malformed | unloadable
            · exact ⟨_, readDocument_of_malformed loaded malformed⟩
            · exact absurd unloadable (loadable e loaded)
        obtain ⟨reading, done⟩ := read
        rw [done]
        exact ⟨_, rfl⟩

-- A date without a day in the calendar.
example : (Normalizer.mk "<Project />" .structured).normalize "2024-13-45"
    = .error (.date .month) := by decide +kernel

end InlineProject.Normalizer
