import Mathlib
import InlineProject.Descriptor.Project
import InlineProject.Proofs.CanonicalMarkup
/-!
The roots of projects. Whatever names a draft brings along, what can be read of its text is an element with
the name of a project, and not in the namespace of the markup language itself.
-/

namespace InlineProject

/-! ### Roots of projects -/

namespace Xml

variable {n : Node} {keep : Comments} {cs rest text : List Char} {fuel : Nat} {label : String}

theorem parse?_named (read : parse? keep cs = some n) (named : n.label ≠ "") : n.Root := by
  obtain ⟨proper, last⟩ := parse?_proper read
  refine ⟨proper, ?_, last⟩
  cases n with
  | comment => exact absurd rfl named
  | element => rfl

theorem parse?_allowed (read : parse? keep ('<' :: text) = some n) : Allowed ('<' :: text) := by
  unfold parse? at read
  obtain ⟨checked, _⟩ := Option.ite_none_left_eq_some.mp read
  simpa [Allowed] using checked

-- An element without a prefix at the root of a document.
theorem element?_unmarked (labelled : Label label) (closes : Closes rest)
    (allowed : Allowed (label.toList ++ rest)) {behind : List Char}
    (read : element? keep .empty fuel .start [] (label.toList ++ rest) = some (n, behind)) :
    ∃ name, n.name? = some name ∧ name.label = label ∧ name.space ≠ some xmlSpace := by
  have bare : WrittenName.Proper ⟨none, label⟩ := ⟨labelled, fun _ impossible => absurd impossible (by simp)⟩
  have named : name? (label.toList ++ rest) = some (⟨none, label⟩, rest) := name?_chars bare closes
  obtain ⟨t, _, name, _, inner, _, tagged, entered, rfl, _⟩ := element?_parts read
  have valid := (tag?_parts .empty allowed tagged).1
  have scope : inner.Proper := (open?_proper .empty .start valid entered).2.2.2
  have unmarked : t.name = ⟨none, label⟩ := by
    unfold tag? at tagged
    obtain ⟨⟨first, behind'⟩, found, tagged⟩ := Option.bind_eq_some_iff.mp tagged
    obtain ⟨⟨_, _, _⟩, _, tagged⟩ := Option.bind_eq_some_iff.mp tagged
    cases tagged
    cases named.symm.trans found
    rfl
  obtain ⟨_, element, _, _⟩ := open?_parts entered
  rw [unmarked] at element
  exact ⟨name, rfl, elementName?_unmarked scope element⟩

theorem parse?_unmarked (labelled : Label label) {c : Char} (stops : continuesName c = false)
    (colon : c ≠ ':') (return_ : c ≠ '\r')
    (read : parse? keep ('<' :: (label.toList ++ c :: rest)) = some n) :
    ∃ name, n.name? = some name ∧ name.label = label ∧ name.space ≠ some xmlSpace := by
  have allowed := parse?_allowed read
  have unified : Lines.unifyBreaks (label.toList ++ c :: rest)
      = label.toList ++ c :: Lines.unifyBreaks rest := by
    rw [unifyBreaks_quiet labelled.quiet, unifyBreaks_cons return_]
  have begins : Begins (label.toList ++ c :: Lines.unifyBreaks rest) := by
    obtain ⟨first, more, split, starts⟩ := labelled.starts
    exact ⟨first, more ++ c :: Lines.unifyBreaks rest, by rw [split]; rfl, starts⟩
  have inside : Allowed (label.toList ++ c :: Lines.unifyBreaks rest) := by
    rw [← unified]
    exact unifyBreaks_allowed (allowed.suffix (List.suffix_cons _ _))
  rw [parse?_begins allowed unified begins] at read
  obtain ⟨⟨root, behind⟩, element, read⟩ := Option.bind_eq_some_iff.mp read
  obtain ⟨_, _, read⟩ := Option.bind_eq_some_iff.mp read
  obtain ⟨_, read⟩ := Option.ite_none_right_eq_some.mp read
  cases read
  exact element?_unmarked labelled (.cons stops colon) inside element

end Xml

/-! ### Drafts -/

namespace Project

open Xml

variable {d d' : Draft}

def Draft.name : Draft → Text
  | .element name _ _ _ => name

theorem withText_name {t : Text} : (d.withText t).name = d.name := by
  cases d
  rfl

theorem withChild_name {child : Draft} : (d.withChild child).name = d.name := by
  cases d
  rfl

theorem withAttribute_name {key value : Text} : (d.withAttribute key value).name = d.name := by
  cases d
  rfl

theorem map_parts {ε α β : Type} {f : α → β} {e : Except ε α} {b : β} (mapped : e.map f = .ok b) :
    ∃ a, e = .ok a ∧ f a = b := by
  cases e with
  | error => cases mapped
  | ok a =>
    cases mapped
    exact ⟨a, rfl, rfl⟩

theorem mapError_parts {ε ε' α : Type} {f : ε → ε'} {e : Except ε α} {a : α}
    (mapped : e.mapError f = .ok a) : e = .ok a := by
  cases e with
  | error => cases mapped
  | ok a =>
    cases mapped
    rfl

theorem bind_parts {ε α β : Type} {f : α → Except ε β} {e : Except ε α} {b : β} (bound : e.bind f = .ok b) :
    ∃ a, e = .ok a ∧ f a = .ok b := by
  cases e with
  | error => cases bound
  | ok a => exact ⟨a, rfl, bound⟩

theorem bind_fails {ε α β : Type} {f : α → Except ε β} {e : Except ε α} {x : ε} (bound : e.bind f = .error x) :
    e = .error x ∨ ∃ a, e = .ok a ∧ f a = .error x := by
  cases e with
  | error =>
    cases bound
    exact .inl rfl
  | ok a => exact .inr ⟨a, rfl, bound⟩

theorem mapM_parts {ε α β : Type} {f : α → Except ε β} {l : List α} {r : List β} :
    l.mapM f = .ok r ↔ List.Forall₂ (fun a b => f a = .ok b) l r := by
  induction l generalizing r with
  | nil =>
    rw [List.mapM_nil, List.forall₂_nil_left_iff]
    exact ⟨fun same => (Except.ok.inj same).symm, fun none => none ▸ rfl⟩
  | cons a l ih =>
    rw [List.mapM_cons, List.forall₂_cons_left_iff]
    constructor
    · intro mapped
      obtain ⟨b, first, mapped⟩ := bind_parts mapped
      obtain ⟨bs, others, mapped⟩ := bind_parts mapped
      cases mapped
      exact ⟨b, bs, first, ih.mp others, rfl⟩
    · rintro ⟨b, bs, first, others, rfl⟩
      rw [first, ih.mpr others]
      rfl

theorem forall₂_mem {α β : Type} {related : α → β → Prop} {l : List α} {r : List β}
    (each : List.Forall₂ related l r) :
    (∀ a ∈ l, ∃ b ∈ r, related a b) ∧ ∀ b ∈ r, ∃ a ∈ l, related a b := by
  induction each with
  | nil => simp
  | @cons a b l r first _ ih =>
    obtain ⟨left, right⟩ := ih
    constructor
    · refine List.forall_mem_cons.mpr ⟨⟨b, List.mem_cons_self, first⟩, fun x member => ?_⟩
      obtain ⟨y, among, held⟩ := left x member
      exact ⟨y, List.mem_cons_of_mem _ among, held⟩
    · refine List.forall_mem_cons.mpr ⟨⟨a, List.mem_cons_self, first⟩, fun y member => ?_⟩
      obtain ⟨x, among, held⟩ := right y member
      exact ⟨x, List.mem_cons_of_mem _ among, held⟩

theorem mapM_fails {ε α β : Type} {f : α → Except ε β} {l : List α} {x : ε} (mapped : l.mapM f = .error x) :
    ∃ a ∈ l, f a = .error x := by
  induction l with
  | nil => cases mapped
  | cons a l ih =>
    rw [List.mapM_cons] at mapped
    obtain failed | ⟨b, _, mapped⟩ := bind_fails mapped
    · exact ⟨a, List.mem_cons_self, failed⟩
    · obtain failed | ⟨bs, _, impossible⟩ := bind_fails mapped
      · obtain ⟨a, member, failed⟩ := ih failed
        exact ⟨a, List.mem_cons_of_mem _ member, failed⟩
      · cases impossible

mutual
theorem addChildren_name {d d' : Draft} (key : Text) :
    (j : Json) → addChildren d key j = .ok d' → d'.name = d.name
  | .arr items, added => addItems_name key items (by rwa [addChildren] at added)
  | .obj fields, added => by
    rw [addChildren] at added
    obtain ⟨child, _, rfl⟩ := map_parts added
    exact withChild_name
  | .null, added => by
    rw [addChildren] at added
    cases added
    exact withChild_name
  | .bool _, added | .int _, added | .real _, added | .str _, added => by
    rw [addChildren] at added
    · obtain ⟨child, _, rfl⟩ := map_parts added
      exact withChild_name
    all_goals simp

theorem addItems_name {d d' : Draft} (key : Text) :
    (items : List Json) → addItems d key items = .ok d' → d'.name = d.name
  | [], added => by
    cases added
    rfl
  | item :: rest, added => by
    rw [addItems] at added
    obtain ⟨middle, first, others⟩ := bind_parts added
    exact (addItems_name key rest others).trans (addChildren_name key item first)
end

mutual
theorem fill_name {d d' : Draft} : (j : Json) → fill d j = .ok d' → d'.name = d.name
  | .obj fields, filled => fillFields_name fields (by rwa [fill] at filled)
  | .arr items, filled => fillItems_name items (by rwa [fill] at filled)
  | .null, filled => by
    rw [fill] at filled
    cases filled
    rfl
  | .bool _, filled | .int _, filled | .real _, filled | .str _, filled => by
    rw [fill] at filled
    · obtain ⟨t, _, rfl⟩ := map_parts filled
      exact withText_name
    all_goals simp

theorem fillItems_name {d d' : Draft} :
    (items : List Json) → fillItems d items = .ok d' → d'.name = d.name
  | [], filled => by
    cases filled
    rfl
  | item :: rest, filled => by
    rw [fillItems] at filled
    obtain ⟨middle, first, others⟩ := bind_parts filled
    exact (fillItems_name rest others).trans (fill_name item first)

theorem fillFields_name {d d' : Draft} :
    (fields : List (Text × Json)) → fillFields d fields = .ok d' → d'.name = d.name
  | [], filled => by
    cases filled
    rfl
  | (key, value) :: rest, filled => by
    rw [fillFields] at filled
    dsimp only at filled
    split at filled
    · obtain ⟨middle, first, others⟩ := bind_parts filled
      obtain ⟨t, _, rfl⟩ := map_parts first
      exact (fillFields_name rest others).trans withAttribute_name
    · split at filled
      · obtain ⟨middle, first, others⟩ := bind_parts filled
        obtain ⟨t, _, rfl⟩ := map_parts first
        exact (fillFields_name rest others).trans withText_name
      · obtain ⟨middle, first, others⟩ := bind_parts filled
        exact (fillFields_name rest others).trans (addChildren_name key value first)
end

theorem draftOf_name {fields : List (Text × Json)} (drafted : draftOf fields = .ok d) :
    d.name = Text.ofString rootLabel := by
  unfold draftOf at drafted
  dsimp only at drafted
  split at drafted
  · split at drafted
    · exact fill_name _ drafted
    · exact fillFields_name _ drafted
  · exact fillFields_name _ drafted

-- A name that opens no namespace is taken as it is.
theorem nameOf_bare {label : String} (bare : ∀ c ∈ label.toList.head?, c ≠ '\x7b') :
    nameOf (Text.ofString label) = .ok ⟨none, label⟩ := by
  have chars : Text.toCharsLossy (Text.ofString label) = label.toList := by
    simp [Text.toCharsLossy, Text.ofString, Text.ofChars, Function.comp_def]
  have taken : splitName? label.toList = some ⟨none, String.ofList label.toList⟩ := by
    unfold splitName?
    split
    · rename_i rest opens
      exact absurd rfl (bare '\x7b' (by rw [opens]; rfl))
    · rfl
  unfold nameOf
  rw [chars, taken, String.ofList_toList]

theorem nameOf_root : nameOf (Text.ofString rootLabel) = .ok ⟨none, rootLabel⟩ := by
  apply nameOf_bare
  rintro _ ⟨⟩
  decide

-- What can stand behind the name in a tag.
def Parts (c : Char) : Prop := c = ' ' ∨ c = '>'

theorem attributeTexts_begin {β : Type} (f : β → List Char) (g : β → String) (entries : List β) {c : Char}
    {rest : List Char} (last : Parts c) :
    ∃ x more, (entries.flatMap fun b => attributeText (f b) (g b)) ++ c :: rest = x :: more ∧ Parts x := by
  cases entries with
  | nil => exact ⟨c, rest, rfl, last⟩
  | cons b entries =>
    rw [List.flatMap_cons, List.append_assoc, attributeText_append]
    exact ⟨' ', _, rfl, .inl rfl⟩

-- The text of an element with a bare name.
theorem toText_begins {label text : String} {attributes : List (Xml.Name × String)} {children : List Node} :
    ∃ c more, (Node.element ⟨none, label⟩ attributes text children "").toText
      = '<' :: (label.toList ++ c :: more) ∧ Parts c := by
  have tagged (marks : Marks) {c : Char} (rest : List Char) (last : Parts c) :
      ∃ x more, marks.declarations ++
        ((attributes.flatMap fun a => attributeText (marks.write a.1) a.2) ++ c :: rest) = x :: more ∧
          Parts x := by
    obtain ⟨y, middle, own, between⟩ := attributeTexts_begin (fun a => marks.write a.1) (fun a => a.2)
      attributes last
    rw [own]
    exact attributeTexts_begin _ _ _ between
  rw [Node.toText]
  generalize (Node.element ⟨none, label⟩ attributes text children "").collectMarks [] = marks
  rw [Node.write]
  dsimp only
  split
  · obtain ⟨x, more, split, parts⟩ := tagged marks ('/' :: '>' :: []) (.inl rfl)
    refine ⟨x, more, ?_, parts⟩
    rw [← split]
    simp [Marks.write, escapedText]
  · obtain ⟨x, more, split, parts⟩ := tagged marks
      (escapedText text ++ writeAll marks children ++ '<' :: '/' :: marks.write ⟨none, label⟩ ++ ['>']) (.inr rfl)
    refine ⟨x, more, ?_, parts⟩
    rw [← split]
    simp [Marks.write, escapedText]

-- The tree of a draft, and how its text begins.
theorem toNode_begins {d : Draft} {n : Node} (named : d.name = Text.ofString rootLabel)
    (made : toNode d = .ok n) :
    ∃ c more, n.toText = '<' :: (rootLabel.toList ++ c :: more) ∧ Parts c := by
  obtain ⟨name, attributes, text, children⟩ := d
  have same : name = Text.ofString rootLabel := named
  rw [toNode, same] at made
  obtain ⟨_, _, made⟩ := bind_parts made
  obtain ⟨given, _, made⟩ := bind_parts made
  obtain ⟨root, found, made⟩ := bind_parts made
  obtain ⟨inside, _, made⟩ := bind_parts made
  obtain ⟨below, _, made⟩ := bind_parts made
  cases made
  rw [nameOf_root] at found
  cases found
  exact toText_begins

theorem ofJson_parts {fields : List (Text × Json)} {xml : List Char}
    (made : ofJson (.obj fields) = .ok (some xml)) :
    ∃ d written n, draftOf fields = .ok d ∧ toNode d = .ok written ∧ parse? .dropped written.toText = some n ∧
      xml = n.canonical := by
  obtain ⟨d, drafted, made⟩ := bind_parts made
  obtain ⟨_, _, made⟩ := bind_parts made
  obtain ⟨written, built, made⟩ := bind_parts made
  obtain ⟨n, read, rfl⟩ := Option.map_eq_some_iff.mp (Except.ok.inj made)
  exact ⟨d, written, n, mapError_parts drafted, built, read, rfl⟩

-- What is read of the text of a draft is the root of a project.
theorem draft_root {fields : List (Text × Json)} {d : Draft} {written n : Node}
    (drafted : draftOf fields = .ok d) (built : toNode d = .ok written)
    (read : parse? .dropped written.toText = some n) :
    n.Root ∧ n.label = rootLabel ∧ n.rootSpace? ≠ some xmlSpace := by
  obtain ⟨c, more, begins, parts⟩ := toNode_begins (draftOf_name drafted) built
  rw [begins] at read
  have stops : continuesName c = false ∧ c ≠ ':' ∧ c ≠ '\r' := by
    rcases parts with rfl | rfl <;> decide
  obtain ⟨name, named, labelled, other⟩ :=
    parse?_unmarked (by decide) stops.1 stops.2.1 stops.2.2 read
  have label : n.label = rootLabel := by
    rw [Node.label, named]
    exact labelled
  refine ⟨parse?_named read ?_, label, fun reserved => ?_⟩
  · rw [label]
    decide
  · obtain ⟨name', named', spaced⟩ := rootSpace?_name reserved
    cases named.symm.trans named'
    exact other spaced

theorem ofJson_root {j : Json} {xml : List Char} (made : ofJson j = .ok (some xml)) :
    ∃ n : Node, n.Root ∧ n.label = rootLabel ∧ n.rootSpace? ≠ some xmlSpace ∧ xml = n.canonical := by
  cases j with
  | obj fields =>
    obtain ⟨d, written, n, drafted, built, read, rfl⟩ := ofJson_parts made
    obtain ⟨root, label, other⟩ := draft_root drafted built read
    exact ⟨n, root, label, other, rfl⟩
  | _ => cases made

end Project
end InlineProject
