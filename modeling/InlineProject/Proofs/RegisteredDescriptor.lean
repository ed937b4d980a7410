import InlineProject.Descriptor.Normalize
import InlineProject.Proofs.DraftedProject
import InlineProject.Proofs.MarkupBytes
import InlineProject.Proofs.ProjectWord
/-!
The markup that the normalizer gives and what registration makes of it. A file that holds it is registered as
a project, except where a descriptor is markup whose root is in the namespace of the language itself: the
canonical form of such a root is no document.
-/

namespace InlineProject

open InlineProject.Action InlineProject.Git

/-! ### Registration -/

namespace Project

-- A text that is, as a file, the markup of a project.
def IsMarkup (x : String) : Prop := ∃ root, Xml.parseBytes x.toUTF8 = .ok root ∧ root.label = rootLabel

end Project

namespace Registry

variable {σ : Type} {runner : Runner σ} {w w' : World σ} {file : Path} {r : Registry} {q : Place} {x : String}

theorem opening_exact : openingOf x.toUTF8 = .ok .project ↔ Project.IsMarkup x := by
  unfold openingOf Project.IsMarkup
  constructor
  · intro opens
    split at opens
    · rename_i root read
      refine ⟨root, read, ?_⟩
      by_contra other
      rw [if_neg other] at opens
      cases opens
    · cases opens
    · cases opens
    · cases opens
  · rintro ⟨root, read, label⟩
    rw [read]
    dsimp only
    rw [if_pos label]

theorem keep_stores (storable : Storable w) (path : r.path = w.registry.path) :
    ∃ w', (keep r).run runner w = (.ok (), w') := by
  obtain ⟨r', d', persisted, _⟩ := persist_answers fun p on => storable p (path ▸ on)
  refine ⟨{ w with disk := d', registry := r' }, ?_⟩
  rw [keep_run, persisted]

-- A file that holds a text is registered, and its project recorded, wherever it lies.
def Accepts (x : String) : Prop :=
  ∀ {σ : Type} {runner : Runner σ} {w : World σ} {file : Path} {q : Place} (xml : String),
    w.disk.locate file = .ok q → w.disk.item? q = some (.file x.toUTF8) → Storable w →
      ∃ w', (register file xml).run runner w = (.ok false, w') ∧ Records file w'

-- A file that holds a text is not registered, and the registry stays as it was.
def Refuses (x : String) : Prop :=
  ∀ {σ : Type} {runner : Runner σ} {w : World σ} {file : Path} {q : Place} (xml : String),
    w.disk.locate file = .ok q → w.disk.item? q = some (.file x.toUTF8) →
      ∃ w', (register file xml).run runner w = (.ok true, w') ∧ w'.registry = w.registry

theorem accepts_markup (markup : Project.IsMarkup x) : Accepts x := by
  intro σ runner w file q xml located present storable
  obtain ⟨stored, kept⟩ : ∃ stored, (keep (registered w file)).run runner w = (.ok (), stored) :=
    keep_stores storable rfl
  obtain ⟨n, m, ran⟩ : ∃ n m, (register file xml).run runner w = (.ok false, hear m (hear n stored)) :=
    register_project located present (opening_exact.mpr markup) kept
  exact ⟨_, ran, (keep_records kept).hear.hear⟩

theorem openProject_malformed (located : w.disk.locate file = .ok q)
    (present : w.disk.item? q = some (.file x.toUTF8)) (malformed : Xml.parseBytes x.toUTF8 = .error .malformed) :
    ∃ reason, (openProject file).run runner w = (.ok (.unreadable reason), w) := by
  refine ⟨"not well-formed", ?_⟩
  have opens : openingOf x.toUTF8 = .ok (.unreadable "not well-formed") := by
    unfold openingOf
    rw [malformed]
  rw [openProject_run located present, opens]

theorem register_unreadable {reason xml : String} (located : w.disk.locate file = .ok q)
    (present : w.disk.item? q = some (.file x.toUTF8))
    (opened : (openProject file).run runner w = (.ok (.unreadable reason), w)) :
    ∃ n, (register file xml).run runner w = (.ok true, hear n w) := by
  refine ⟨?_, ?_⟩
  rotate_left
  · unfold register
    rw [bind_ok (register_there located present)]
    simp only [Bool.not_true, Bool.false_eq_true, if_false]
    rw [bind_ok opened]
    dsimp only
    rw [bind_ok (run_note _ _ _)]
    rfl

theorem refuses_malformed (malformed : Xml.parseBytes x.toUTF8 = .error .malformed) : Refuses x := by
  intro σ runner w file q xml located present
  obtain ⟨reason, opened⟩ : ∃ reason, (openProject file).run runner w = (.ok (.unreadable reason), w) :=
    openProject_malformed located present malformed
  obtain ⟨n, ran⟩ : ∃ n, (register file xml).run runner w = (.ok true, hear n w) :=
    register_unreadable located present opened
  exact ⟨_, ran, hear_registry⟩

end Registry

/-! ### Normalized descriptors -/

namespace Normalizer

open Xml

variable {n : Normalizer} {s x : String} {root : Node}

theorem canonical_markup (rooted : root.Root) (label : root.label = Project.rootLabel)
    (other : root.rootSpace? ≠ some xmlSpace) : Project.IsMarkup (String.ofList root.canonical) := by
  obtain ⟨cs, split, begins⟩ := canonical_begins rooted
  have chars : (String.ofList root.canonical).toList = '<' :: cs := by rw [String.toList_ofList, split]
  refine ⟨root.settled.unified.reread .dropped root.rootSpace?, ?_, ?_⟩
  · rw [parseBytes_begins chars begins, String.toList_ofList, parse?_canonical rooted other]
  · rw [reread_label rooted.settled.element, settled_label, label]

theorem canonical_malformed (rooted : root.Root) (reserved : root.rootSpace? = some xmlSpace) :
    parseBytes (String.ofList root.canonical).toUTF8 = .error .malformed := by
  obtain ⟨cs, split, begins⟩ := canonical_begins rooted
  have chars : (String.ofList root.canonical).toList = '<' :: cs := by rw [String.toList_ofList, split]
  rw [parseBytes_begins chars begins, String.toList_ofList, parse?_canonical_refused rooted reserved]

-- A descriptor that is markup already, with its root in the namespace of the language itself.
def Reserved (s : String) : Prop :=
  ∃ root ∈ Project.ofMarkup? s.toList, root.name?.bind (·.space) = some xmlSpace

instance : Decidable (Reserved s) :=
  inferInstanceAs (Decidable (∃ root ∈ Project.ofMarkup? s.toList, root.name?.bind (·.space) = some xmlSpace))

theorem rootSpace?_reserved :
    root.rootSpace? = some xmlSpace ↔ root.name?.bind (·.space) = some xmlSpace := by
  constructor
  · intro found
    obtain ⟨name, named, spaced⟩ := rootSpace?_name found
    rw [named]
    exact spaced
  · intro spaced
    unfold Node.rootSpace?
    rw [spaced]
    decide +kernel

theorem ofMarkup?_root {cs : List Char} (read : Project.ofMarkup? cs = some root) :
    root.Root ∧ root.label = Project.rootLabel := by
  unfold Project.ofMarkup? at read
  obtain ⟨found, parsed, read⟩ := Option.bind_eq_some_iff.mp read
  obtain ⟨label, read⟩ := Option.ite_none_right_eq_some.mp read
  cases read
  refine ⟨parse?_named parsed ?_, label⟩
  rw [label]
  decide

-- What is no markup gives nothing, the default, or the canonical form of what was drafted.
theorem readDocument_xml {cs : List Char} {reading : Reading} (read : n.readDocument cs = .ok reading) :
    reading.xml n = "" ∨ reading.xml n = n.defaultXml ∨
      ∃ j xml, Project.ofJson j = .ok (some xml) ∧ reading.xml n = String.ofList xml := by
  unfold readDocument at read
  split at read
  · split at read
    · cases read
      exact .inr (.inl rfl)
    · cases read
  · split at read
    · cases read
      exact .inl rfl
    · split at read
      · cases read
        exact .inr (.inl rfl)
      · split at read
        · cases read
          exact .inr (.inl rfl)
        · split at read
          · cases read
            exact .inr (.inl rfl)
          · cases read
            exact .inr (.inl rfl)
          · rename_i xml made
            cases read
            exact .inr (.inr ⟨_, xml, made, rfl⟩)

-- What the normalizer gives is accepted by the registry, but for descriptors whose root is in the namespace of
-- the language itself, which are refused.
theorem registered_exact (given : n.normalize s = .ok x) (some : x ≠ "")
    (default : Registry.openingOf n.defaultXml.toUTF8 = .ok .project) :
    (¬Reserved s → Project.IsMarkup x ∧ Registry.Accepts x) ∧ (Reserved s → Registry.Refuses x) := by
  have accepted (markup : Project.IsMarkup x) : Project.IsMarkup x ∧ Registry.Accepts x :=
    ⟨markup, Registry.accepts_markup markup⟩
  obtain ⟨reading, taken, rfl⟩ := Project.map_parts given
  unfold read at taken
  cases markup : Project.ofMarkup? s.toList with
  | some root =>
    rw [markup] at taken
    cases taken
    obtain ⟨rooted, label⟩ := ofMarkup?_root markup
    refine ⟨fun free => accepted (canonical_markup rooted label fun reserved => ?_), ?_⟩
    · exact free ⟨root, markup, rootSpace?_reserved.mp reserved⟩
    · rintro ⟨other, same, spaced⟩
      cases markup.symm.trans same
      exact Registry.refuses_malformed (canonical_malformed rooted (rootSpace?_reserved.mpr spaced))
  | none =>
    rw [markup] at taken
    refine ⟨fun _ => accepted ?_, ?_⟩
    · rcases readDocument_xml taken with nothing | standard | ⟨j, xml, made, same⟩
      · exact absurd nothing some
      · rw [standard]
        exact Registry.opening_exact.mp default
      · obtain ⟨root, rooted, label, other, rfl⟩ := Project.ofJson_root made
        rw [same]
        exact canonical_markup rooted label other
    · rintro ⟨root, found, _⟩
      cases markup.symm.trans found

theorem registered_exact_root :
    (Project.IsMarkup "<Project Sdk=\"A\" />" ∧ Registry.Accepts "<Project Sdk=\"A\" />") ∧
      Registry.Refuses "<Project xmlns=\"http://www.w3.org/XML/1998/namespace\" />" :=
  have standard : Registry.openingOf "<Project />".toUTF8 = .ok .project := by decide +kernel
  have drafted : (Normalizer.mk "<Project />" .structured).normalize "\"@Sdk\": A"
      = .ok "<Project Sdk=\"A\" />" := by decide +kernel
  have reserved : (Normalizer.mk "<Project />" .text).normalize "<xml:Project/>"
      = .ok "<Project xmlns=\"http://www.w3.org/XML/1998/namespace\" />" := by decide +kernel
  ⟨(registered_exact drafted (by decide) standard).1 (by decide +kernel),
    (registered_exact reserved (by decide) standard).2 (by decide +kernel)⟩

end Normalizer
end InlineProject
