import Mathlib
import InlineProject.Proofs.MarkupMeaning
/-!
Markup whose names were written as they are. Where no name holds a character that ends a name or an attribute
in a tag, nothing can be read but what was written: every element comes from one that was written, with the
name that it was given, every attribute from one of the element's own, and there are no comments.
-/

namespace InlineProject.Xml

open Lines

variable {c : Char} {cs rest behind text left : List Char} {name : Name} {w : WrittenName} {n m : Node}
  {nodes found : List Node} {attributes : List (Name × String)} {keep : Comments} {s : Scope} {fuel : Nat}
  {closed : Bool} {pieces : List Piece}

/-! ### Names -/

-- A character that a name in a tag cannot end before.
def isInert (c : Char) : Bool := !isSpace c && c != '>' && c != '/' && c != '='

-- A text that, taken as a name, stays inside of its tag, and does not turn the tag into a declaration, a
-- comment or an instruction.
structure Inert (cs : List Char) : Prop where
  inside : ∀ c ∈ cs, isInert c = true
  first : ∀ c ∈ cs.head?, c ≠ '!' ∧ c ≠ '?'

theorem isInert_parts (inert : isInert c = true) : isSpace c = false ∧ c ≠ '>' ∧ c ≠ '/' ∧ c ≠ '=' := by
  simpa [isInert, and_assoc] using inert

theorem simpleName?_split {label : String} (read : simpleName? cs = some (label, rest)) :
    cs = label.toList ++ rest := by
  unfold simpleName? at read
  split at read
  · rename_i c more
    split at read
    · obtain ⟨rfl, rfl⟩ := Prod.mk.inj (Option.some.inj read)
      have front : more.takeWhile continuesName <+: more := List.takeWhile_prefix _
      rw [String.toList_ofList, List.cons_append, List.prefix_iff_eq_append.mp front]
    · cases read
  · cases read

theorem name?_split (read : name? cs = some (w, rest)) : cs = w.chars ++ rest := by
  unfold name? at read
  obtain ⟨⟨first, behind⟩, one, read⟩ := Option.bind_eq_some_iff.mp read
  rw [simpleName?_split one]
  dsimp only at read
  split at read
  · obtain ⟨⟨second, behind⟩, two, read⟩ := Option.bind_eq_some_iff.mp read
    cases read
    rw [simpleName?_split two, WrittenName.chars]
    simp
  · cases read
    rfl

theorem chars_continue (proper : w.Proper) : ∀ c ∈ w.chars, continuesName c = true ∨ c = ':' := by
  obtain ⟨mark, label⟩ := w
  intro c member
  cases mark with
  | none => exact .inl (proper.label.continues c member)
  | some mark =>
    rcases List.mem_append.mp member with before | behind
    · exact .inl ((proper.mark mark rfl).continues c before)
    · rcases List.mem_cons.mp behind with rfl | inside
      · exact .inr rfl
      · exact .inl (proper.label.continues c inside)

-- The name that is read ends where the text does, or before.
theorem name?_within (stops : continuesName c = false) (colon : c ≠ ':')
    (read : name? (cs ++ c :: rest) = some (w, behind)) :
    w.Proper ∧ ∃ left, cs = w.chars ++ left ∧ behind = left ++ c :: rest := by
  have proper := (name?_parts read).1
  refine ⟨proper, ?_⟩
  rcases List.append_eq_append_iff.mp (name?_split read) with ⟨more, longer, split⟩ | ⟨left, split, ends⟩
  · cases more with
    | nil => exact ⟨[], by simpa using longer.symm, by simpa using split.symm⟩
    | cons x more =>
      have member : c ∈ w.chars := by
        rw [longer, (List.cons.inj split).1]
        simp
      rcases chars_continue proper c member with continues | same
      · exact absurd (continues.symm.trans stops) (by simp)
      · exact absurd same colon
  · exact ⟨left, split, ends⟩

/-! ### Tags -/

-- What was written as an attribute, as it is read.
structure Spells (a : Name × String) (given : WrittenName × List Char) : Prop where
  proper : given.1.Proper
  name : a.1.label.toList = given.1.chars
  value : given.2 = a.2.toList

def rawAttributes (attributes : List (Name × String)) : List Char :=
  attributes.flatMap fun a => attributeText a.1.label.toList a.2

theorem skipSpaces_inert (inert : isInert c = true) : skipSpaces (c :: cs) = c :: cs := by
  rw [skipSpaces, List.dropWhile_cons_of_neg (by simp [(isInert_parts inert).1])]

-- Behind a name only a space or the end of the tag is read.
theorem attributes?_stuck (inert : isInert c = true) : attributes? .empty fuel (c :: cs) = none := by
  obtain ⟨space, greater, slash, _⟩ := isInert_parts inert
  cases fuel with
  | zero => rfl
  | succ fuel =>
    have apart : spaces? (c :: cs) = none := by simp [spaces?, space]
    rw [attributes?, skipSpaces_inert inert, after?_none "/>" rfl (Ne.symm slash),
      after?_none ">" rfl (Ne.symm greater)]
    dsimp only
    rw [apart]
    rfl

-- What is read as an attribute has the name that was written.
theorem attribute_spelled {label : List Char} {found : List (WrittenName × List Char) × Bool × List Char}
    (inert : Inert label) (read : attributes? .empty fuel (' ' :: (label ++ '=' :: rest)) = some found) :
    ∃ w : WrittenName, w.Proper ∧ label = w.chars := by
  have begins : ∃ x more, label ++ '=' :: rest = x :: more ∧ isSpace x = false ∧ '/' ≠ x ∧ '>' ≠ x := by
    cases label with
    | nil => exact ⟨'=', rest, rfl, by decide, by decide, by decide⟩
    | cons x label =>
      obtain ⟨space, greater, slash, _⟩ := isInert_parts (inert.inside x List.mem_cons_self)
      exact ⟨x, _, rfl, space, Ne.symm slash, Ne.symm greater⟩
  obtain ⟨x, more, split, space, slash, greater⟩ := begins
  have inside : skipSpaces (x :: more) = x :: more := by
    rw [skipSpaces, List.dropWhile_cons_of_neg (by simp [space])]
  have skipped : skipSpaces (' ' :: x :: more) = x :: more := inside
  have apart : spaces? (' ' :: x :: more) = some (x :: more) := congrArg some inside
  cases fuel with
  | zero => cases read
  | succ fuel =>
    rw [split, attributes?, skipped, after?_none "/>" rfl slash, after?_none ">" rfl greater] at read
    dsimp only at read
    rw [apart, ← split] at read
    obtain ⟨_, ⟨⟩, read⟩ := Option.bind_eq_some_iff.mp read
    obtain ⟨⟨w, behind⟩, named, read⟩ := Option.bind_eq_some_iff.mp read
    obtain ⟨_, equal, _⟩ := Option.bind_eq_some_iff.mp read
    obtain ⟨proper, left, spelled, rfl⟩ := name?_within (by decide) (by decide) named
    cases left with
    | nil => exact ⟨w, proper, by simpa using spelled⟩
    | cons y left =>
      have member : y ∈ label := by
        rw [spelled]
        simp
      have other := inert.inside y member
      rw [List.cons_append, skipSpaces_inert other, after?_none "=" rfl (Ne.symm (isInert_parts other).2.2.2)] at equal
      cases equal

theorem attributes?_raw {given : List (WrittenName × List Char)} {closed' : Bool}
    (inert : ∀ a ∈ attributes, Inert a.1.label.toList)
    (read : attributes? .empty fuel (rawAttributes attributes ++ (ending closed ++ rest))
      = some (given, closed', behind)) :
    List.Forall₂ Spells attributes given ∧ closed' = closed ∧ behind = rest := by
  induction attributes generalizing fuel given with
  | nil =>
    cases fuel with
    | zero => cases read
    | succ fuel =>
      have ends : attributes? .empty (fuel + 1) (ending closed ++ rest) = some ([], closed, rest) := by
        cases closed <;> rfl
      cases ends.symm.trans read
      exact ⟨.nil, rfl, rfl⟩
  | cons a attributes ih =>
    obtain ⟨name, value⟩ := a
    have split : rawAttributes ((name, value) :: attributes) ++ (ending closed ++ rest)
        = attributeText name.label.toList value ++ (rawAttributes attributes ++ (ending closed ++ rest)) := by
      rw [rawAttributes, List.flatMap_cons, List.append_assoc]
      rfl
    rw [split] at read
    have spelled : ∃ w : WrittenName, w.Proper ∧ name.label.toList = w.chars := by
      rw [attributeText_append] at read
      exact attribute_spelled (inert (name, value) List.mem_cons_self) read
    obtain ⟨w, proper, spelled⟩ := spelled
    cases fuel with
    | zero => cases read
    | succ fuel =>
      rw [spelled, attributes?_step proper] at read
      obtain ⟨⟨more, _, _⟩, later, read⟩ := Option.map_eq_some_iff.mp read
      cases read
      obtain ⟨others, same, ends⟩ := ih (fun b member => inert b (List.mem_cons_of_mem _ member)) later
      exact ⟨.cons ⟨proper, spelled, rfl⟩ others, same, ends⟩

theorem rawAttributes_begin (attributes : List (Name × String)) (closed : Bool) (rest : List Char) :
    ∃ c more, rawAttributes attributes ++ (ending closed ++ rest) = c :: more ∧ Project.Parts c := by
  cases closed with
  | true => exact Project.attributeTexts_begin _ _ attributes (.inl rfl)
  | false => exact Project.attributeTexts_begin _ _ attributes (.inr rfl)

def rawTag (name : Name) (attributes : List (Name × String)) (closed : Bool) (rest : List Char) : List Char :=
  name.label.toList ++ (rawAttributes attributes ++ (ending closed ++ rest))

theorem tag?_raw {t : Tag} (named : Inert name.label.toList) (given : ∀ a ∈ attributes, Inert a.1.label.toList)
    (read : tag? .empty (rawTag name attributes closed rest) = some (t, behind)) :
    t.name.Proper ∧ name.label.toList = t.name.chars ∧ List.Forall₂ Spells attributes t.attributes ∧
      t.closed = closed ∧ behind = rest := by
  obtain ⟨c, more, split, parts⟩ := rawAttributes_begin attributes closed rest
  have stops : continuesName c = false ∧ c ≠ ':' := by
    rcases parts with rfl | rfl <;> decide
  unfold tag? at read
  obtain ⟨⟨w, after⟩, first, read⟩ := Option.bind_eq_some_iff.mp read
  obtain ⟨⟨attributes', closed', last⟩, others, read⟩ := Option.bind_eq_some_iff.mp read
  cases read
  rw [rawTag, split] at first
  obtain ⟨proper, left, spelled, rfl⟩ := name?_within stops.1 stops.2 first
  cases left with
  | nil =>
    rw [List.nil_append, ← split] at others
    obtain ⟨same, ends⟩ := attributes?_raw given others
    exact ⟨proper, by simpa using spelled, same, ends⟩
  | cons y left =>
    have member : y ∈ name.label.toList := by
      rw [spelled]
      simp
    rw [List.cons_append, attributes?_stuck (named.inside y member)] at others
    cases others

/-! ### What comes from what -/

-- A name that is read where a name was written: it may have found a namespace, but its label is the written
-- one behind the prefix.
def Bears (written read : Name) : Prop :=
  ∃ w : WrittenName, w.Proper ∧ written.label.toList = w.chars ∧ read.label = w.label

def Name.Spelled (written : Name) : Prop := ∃ w : WrittenName, w.Proper ∧ written.label.toList = w.chars

-- Declarations of namespaces are no attributes any more.
structure AttributesFrom (written read : List (Name × String)) : Prop where
  spelled : ∀ a ∈ written, a.1.Spelled
  kept : List.SublistForall₂ (fun b a => Bears a.1 b.1 ∧ b.2 = a.2) read written

mutual
-- A tree whose elements come from those of another one, and each from another one.
def Node.Stems : Node → Node → Prop
  | .element name attributes _ children _, .element name' attributes' _ children' _ =>
      Bears name name' ∧ AttributesFrom attributes attributes' ∧ AllStem children children'
  | _, _ => False

def AllStem : List Node → List Node → Prop
  | [], [] => True
  | n :: rest, m :: rest' => n.Stems m ∧ AllStem rest rest'
  | _, _ => False
end

-- A place for a text in an element: an attribute, or the text of its own, which stands beside a child or not.
inductive Slot where
  | given (value : String)
  | text (beside : Bool) (value : String)

mutual
-- The places for texts in a tree, in the order of the document.
def Node.slots : Node → List Slot
  | .element _ attributes text children _ =>
      attributes.map (fun a => .given a.2) ++ .text (!children.isEmpty) text :: slotsAll children
  | .comment _ _ => []

def slotsAll : List Node → List Slot
  | [] => []
  | n :: rest => n.slots ++ slotsAll rest
end

-- An attribute of this name declares a namespace.
def Declares (label : String) : Prop := ∃ w : WrittenName, w.bound?.isSome = true ∧ label.toList = w.chars

mutual
def Node.Undeclared : Node → Prop
  | .element _ attributes _ children _ => (∀ a ∈ attributes, ¬Declares a.1.label) ∧ AllUndeclared children
  | .comment _ _ => True

def AllUndeclared : List Node → Prop
  | [] => True
  | n :: rest => n.Undeclared ∧ AllUndeclared rest
end

-- What is read of a tree that was written: without declarations all texts are in their places.
structure ComesFrom (n m : Node) : Prop where
  stems : n.Stems m
  slots : n.Undeclared → m.slots = n.slots

theorem elementName?_label (read : s.elementName? w = some name) : name.label = w.label := by
  unfold Scope.elementName? at read
  split at read
  · obtain ⟨_, _, rfl⟩ := Option.map_eq_some_iff.mp read
    rfl
  · split at read <;> cases read <;> rfl

theorem attributeName?_label (read : s.attributeName? w = some name) : name.label = w.label := by
  unfold Scope.attributeName? at read
  split at read
  · obtain ⟨_, _, rfl⟩ := Option.map_eq_some_iff.mp read
    rfl
  · cases read
    rfl

theorem open?_raw {t : Tag} {given : List (Name × String)} {inner : Scope}
    (spelled : List.Forall₂ Spells attributes t.attributes) (read : open? .empty s t = some (name, given, inner)) :
    AttributesFrom attributes given ∧
      ((∀ a ∈ attributes, ¬Declares a.1.label) → given.map Prod.snd = attributes.map Prod.snd) := by
  obtain ⟨_, _, mapped, -⟩ := open?_parts read
  rw [declared_empty] at mapped
  generalize t.attributes = tagged at spelled mapped
  clear read
  induction spelled generalizing given with
  | nil =>
    cases mapped
    exact ⟨⟨by simp, .nil⟩, fun _ => rfl⟩
  | @cons a g attributes tagged first _ ih =>
    obtain ⟨w, value⟩ := g
    have own : a.1.Spelled := ⟨w, first.proper, first.name⟩
    rw [List.filter_cons] at mapped
    by_cases free : w.bound?.isNone = true
    · rw [if_pos free, List.mapM_cons] at mapped
      obtain ⟨b, found, mapped⟩ := Option.bind_eq_some_iff.mp mapped
      obtain ⟨more, later, mapped⟩ := Option.bind_eq_some_iff.mp mapped
      obtain ⟨other, named, rfl⟩ := Option.map_eq_some_iff.mp found
      cases mapped
      obtain ⟨others, values⟩ := ih later
      have same : String.ofList value = a.2 := by
        have value : value = a.2.toList := first.value
        rw [value, String.ofList_toList]
      have comes : Bears a.1 other := ⟨w, first.proper, first.name, attributeName?_label named⟩
      refine ⟨⟨List.forall_mem_cons.mpr ⟨own, others.spelled⟩, .cons ⟨comes, same⟩ others.kept⟩, fun undeclared => ?_⟩
      rw [List.map_cons, List.map_cons, same, values fun b member => undeclared b (List.mem_cons_of_mem _ member)]
    · rw [if_neg free] at mapped
      obtain ⟨others, _⟩ := ih mapped
      refine ⟨⟨List.forall_mem_cons.mpr ⟨own, others.spelled⟩, .cons_right others.kept⟩, fun undeclared => ?_⟩
      have bound : w.bound?.isSome = true := by simpa [Option.isSome_iff_ne_none] using free
      exact absurd ⟨w, bound, first.name⟩ (undeclared a List.mem_cons_self)

/-! ### Content -/

theorem content?_run_parts {run : List Char} (plain : ∀ c ∈ run, Plain c) (breaks : Breaks cs)
    (read : content? keep .empty fuel s [] (run ++ cs) = some (pieces, rest)) :
    ∃ less found, content? keep .empty less s [] cs = some (found, rest) ∧
      assemble pieces = (run ++ (assemble found).1, (assemble found).2) := by
  by_cases none : run = []
  · rw [none] at read ⊢
    exact ⟨fuel, pieces, read, rfl⟩
  · cases fuel with
    | zero => cases read
    | succ fuel =>
      rw [content?_run none plain breaks] at read
      obtain ⟨⟨found, _⟩, later, read⟩ := Option.map_eq_some_iff.mp read
      cases read
      exact ⟨fuel, found, later, rfl⟩

-- `run` are the plain characters before a text, as in `reads_text_behind`.
theorem content?_text_parts (run : List Char) (plain : ∀ c ∈ run, Plain c) (breaks : Breaks cs)
    (read : content? keep .empty fuel s [] (run ++ (text.flatMap escapeText ++ cs)) = some (pieces, rest)) :
    ∃ less found, content? keep .empty less s [] cs = some (found, rest) ∧
      assemble pieces = (run ++ text ++ (assemble found).1, (assemble found).2) := by
  induction text generalizing run fuel pieces with
  | nil =>
    rw [List.append_nil]
    exact content?_run_parts plain breaks read
  | cons c text ih =>
    have escape := escapeText_escape c
    rw [List.flatMap_cons] at read
    generalize escapeText c = written at escape read
    cases escape with
    | plain allowed =>
      have longer : ∀ x ∈ run ++ [c], Plain x :=
        List.forall_mem_append.mpr ⟨plain, List.forall_mem_singleton.mpr allowed⟩
      rw [List.append_cons]
      exact ih (run ++ [c]) longer (by simpa using read)
    | @reference name readName _ _ =>
      rw [List.append_assoc] at read
      obtain ⟨less, found, referred, same⟩ := content?_run_parts plain .amp read
      cases less with
      | zero => cases referred
      | succ less =>
        have behind := (content?_reference (readName (text.flatMap escapeText ++ cs))).symm.trans referred
        obtain ⟨⟨found', _⟩, later, split⟩ := Option.map_eq_some_iff.mp behind
        cases split
        obtain ⟨less', last, ends, same'⟩ := ih [] (by simp) later
        have one : assemble ([.text [c]] ++ found') = (c :: (assemble found').1, (assemble found').2) := rfl
        refine ⟨less', last, ends, ?_⟩
        rw [same, one, same']
        simp

-- An element whose names, and those below it, were written as they are.
inductive Node.Raw : Node → Prop where
  | element {name : Name} {attributes : List (Name × String)} {text : String} {children : List Node}
      (bare : name.space = none) (named : Inert name.label.toList) (bareAll : ∀ a ∈ attributes, a.1.space = none)
      (given : ∀ a ∈ attributes, Inert a.1.label.toList) (below : ∀ n ∈ children, Node.Raw n) :
      Node.Raw (.element name attributes text children "")

-- An element behind its opening bracket.
def rawText (name : Name) (attributes : List (Name × String)) (text : String) (children : List Node)
    (rest : List Char) : List Char :=
  if text.isEmpty && children.isEmpty then rawTag name attributes true rest
  else
    rawTag name attributes false (escapedText text ++ (writeAll [] children ++
      '<' :: '/' :: (name.label.toList ++ '>' :: rest)))

theorem write_raw (text : String) (children : List Node) (rest : List Char) (bare : name.space = none)
    (bareAll : ∀ a ∈ attributes, a.1.space = none) :
    (Node.element name attributes text children "").write [] [] ++ rest
      = '<' :: rawText name attributes text children rest := by
  have bareName (n : Name) (bare : n.space = none) : Marks.write [] n = n.label.toList := by
    rw [Marks.write, bare]
  have given : (attributes.flatMap fun a => attributeText (Marks.write [] a.1) a.2) = rawAttributes attributes := by
    apply List.flatMap_congr
    intro a member
    rw [bareName a.1 (bareAll a member)]
  rw [Node.write, rawText]
  dsimp only
  rw [bareName name bare, given]
  cases text.isEmpty && children.isEmpty with
  | true => simp [rawTag, ending, escapedText]
  | false => simp [rawTag, ending, escapedText]

theorem rawTag_begins (attributes : List (Name × String)) (closed : Bool) (rest : List Char)
    (named : Inert name.label.toList) :
    ∃ c more, rawTag name attributes closed rest = c :: more ∧ c ≠ '/' ∧ c ≠ '!' ∧ c ≠ '?' := by
  rw [rawTag]
  cases chars : name.label.toList with
  | nil =>
    obtain ⟨c, more, split, parts⟩ := rawAttributes_begin attributes closed rest
    refine ⟨c, more, split, ?_⟩
    rcases parts with rfl | rfl <;> decide
  | cons c label =>
    rw [chars] at named
    obtain ⟨mark, question⟩ := named.first c rfl
    exact ⟨c, _, rfl, (isInert_parts (named.inside c List.mem_cons_self)).2.2.1, mark, question⟩

theorem rawText_begins (attributes : List (Name × String)) (text : String) (children : List Node) (rest : List Char)
    (named : Inert name.label.toList) :
    ∃ c more, rawText name attributes text children rest = c :: more ∧ c ≠ '/' ∧ c ≠ '!' ∧ c ≠ '?' := by
  unfold rawText
  split
  · exact rawTag_begins attributes _ _ named
  · exact rawTag_begins attributes _ _ named

-- What is read of a raw tree, whatever comes behind it.
def ReadRaw (keep : Comments) (n : Node) : Prop :=
  ∀ fuel s inside rest m behind, n.write [] [] ++ rest = '<' :: inside →
    element? keep .empty fuel s [] inside = some (m, behind) → ComesFrom n m ∧ behind = rest

theorem stems_withTail {tail : String} : n.Stems (m.withTail tail) ↔ n.Stems m := by
  cases m <;> cases n <;> rfl

theorem slots_withTail {tail : String} : (m.withTail tail).slots = m.slots := by
  cases m <;> rfl

theorem content?_raw (raw : ∀ n ∈ nodes, n.Raw) (each : ∀ n ∈ nodes, ReadRaw keep n)
    (read : content? keep .empty fuel s [] (writeAll [] nodes ++ '<' :: '/' :: rest) = some (pieces, behind)) :
    (assemble pieces).1 = [] ∧ AllStem nodes (assemble pieces).2 ∧
      (AllUndeclared nodes → slotsAll (assemble pieces).2 = slotsAll nodes) ∧ behind = '<' :: '/' :: rest := by
  induction nodes generalizing fuel pieces with
  | nil =>
    cases fuel with
    | zero => cases read
    | succ fuel =>
      cases read
      exact ⟨rfl, trivial, fun _ => rfl, rfl⟩
  | cons n nodes ih =>
    rw [writeAll, List.append_assoc] at read
    cases raw n List.mem_cons_self with
    | @element name attributes text children bare named bareAll given below =>
      have written := write_raw text children (writeAll [] nodes ++ '<' :: '/' :: rest) bare bareAll
      obtain ⟨c, more, begins, slash, mark, question⟩ :=
        rawText_begins attributes text children (writeAll [] nodes ++ '<' :: '/' :: rest) named
      cases fuel with
      | zero => cases read
      | succ fuel =>
        rw [written, begins, content?_element slash mark question] at read
        obtain ⟨⟨m, after⟩, element, read⟩ := Option.bind_eq_some_iff.mp read
        obtain ⟨⟨found, _⟩, later, read⟩ := Option.map_eq_some_iff.mp read
        cases read
        rw [begins] at written
        obtain ⟨first, rfl⟩ := each _ List.mem_cons_self _ _ _ _ _ _ written element
        obtain ⟨_, others, slots, ends⟩ := ih (fun n member => raw n (List.mem_cons_of_mem _ member))
          (fun n member => each n (List.mem_cons_of_mem _ member)) later
        refine ⟨rfl, ⟨stems_withTail.mpr first.stems, others⟩, fun undeclared => ?_, ends⟩
        change (m.withTail _).slots ++ slotsAll (assemble found).2 = _
        rw [slots_withTail, first.slots undeclared.1, slots undeclared.2]
        rfl

theorem endTag_written (proper : w.Proper) (ends : EndTag w ('<' :: '/' :: (w.chars ++ '>' :: rest)) behind) :
    behind = rest := by
  obtain ⟨inside, last, slash, named, angle⟩ := ends
  cases (rfl : after? "</" ('<' :: '/' :: (w.chars ++ '>' :: rest)) = some _).symm.trans slash
  have closing : name? (w.chars ++ '>' :: rest) = some (w, '>' :: rest) :=
    name?_chars proper (.cons (by decide) (by decide))
  cases closing.symm.trans named
  exact (Option.some.inj angle).symm

theorem allStem_isEmpty (stems : AllStem nodes found) : found.isEmpty = nodes.isEmpty := by
  cases nodes <;> cases found <;> first | rfl | cases stems

-- An element whose attributes and whose content were read.
theorem comesFrom_element {label : Name} {given : List (Name × String)} {t : String} (bears : Bears name label)
    (attributesFrom : AttributesFrom attributes given)
    (values : (∀ a ∈ attributes, ¬Declares a.1.label) → given.map Prod.snd = attributes.map Prod.snd)
    (stems : AllStem nodes found) (slots : AllUndeclared nodes → slotsAll found = slotsAll nodes) :
    ComesFrom (.element name attributes t nodes "") (.element label given t found "") := by
  refine ⟨⟨bears, attributesFrom, stems⟩, fun undeclared => ?_⟩
  have same := congrArg (List.map Slot.given) (values undeclared.1)
  rw [List.map_map, List.map_map] at same
  rw [Node.slots, Node.slots, allStem_isEmpty stems, slots undeclared.2]
  exact congrArg (· ++ _) same

theorem Node.Raw.read (raw : n.Raw) : ReadRaw keep n := by
  induction raw with
  | @element name attributes text children bare named bareAll given below ih =>
    intro fuel s inside rest m behind written read
    rw [write_raw text children rest bare bareAll] at written
    cases written
    obtain ⟨t, after, name', attributes', inner, pieces, tagged, entered, rfl, content⟩ := element?_parts read
    have element := (open?_parts entered).2.1
    unfold rawText at tagged
    split at tagged
    · rename_i nothing
      obtain ⟨proper, spelled, attributes, closed, rfl⟩ := tag?_raw named given tagged
      obtain ⟨from_, values⟩ := open?_raw attributes entered
      rcases content with ⟨_, rfl, rfl⟩ | ⟨open_, _⟩
      · obtain ⟨empty, none⟩ := Bool.and_eq_true_iff.mp nothing
        rw [List.isEmpty_iff.mp none, String.isEmpty_iff.mp empty]
        exact ⟨comesFrom_element ⟨t.name, proper, spelled, elementName?_label element⟩ from_ values trivial fun _ => rfl,
          rfl⟩
      · cases open_.symm.trans closed
    · obtain ⟨proper, spelled, attributes, closed, rfl⟩ := tag?_raw named given tagged
      rcases content with ⟨open_, _⟩ | ⟨_, less, ending, _, content, ends⟩
      · cases open_.symm.trans closed
      · obtain ⟨less', found, later, same⟩ :=
          content?_text_parts [] (by simp) (writeAll_breaks .less) content
        obtain ⟨nothing, others, slots, rfl⟩ := content?_raw below ih later
        obtain ⟨from_, values⟩ := open?_raw attributes entered
        rw [spelled] at ends
        rw [same, nothing, List.append_nil, List.nil_append, String.ofList_toList]
        exact ⟨comesFrom_element ⟨t.name, proper, spelled, elementName?_label element⟩ from_ values others slots,
          endTag_written proper ends⟩

/-! ### Documents -/

theorem Inert.quiet (inert : Inert cs) : '\r' ∉ cs := fun member =>
  absurd (inert.inside '\r' member) (by decide)

theorem rawTag_unified (named : Inert name.label.toList) (given : ∀ a ∈ attributes, Inert a.1.label.toList) :
    unifyBreaks (rawTag name attributes closed rest) = rawTag name attributes closed (unifyBreaks rest) := by
  have attributes : '\r' ∉ rawAttributes attributes := by
    intro member
    obtain ⟨a, among, inside⟩ := List.mem_flatMap.mp member
    simp [attributeText, (given a among).quiet, (escapedValue_quiet a.2).2] at inside
  have last : '\r' ∉ ending closed := by cases closed <;> decide
  rw [rawTag, rawTag, unifyBreaks_quiet named.quiet, unifyBreaks_quiet attributes, unifyBreaks_quiet last]

theorem rawText_unified {t : String} (named : Inert name.label.toList)
    (given : ∀ a ∈ attributes, Inert a.1.label.toList) (each : ∀ n ∈ nodes, Unifies [] n) :
    unifyBreaks (rawText name attributes t nodes rest)
      = rawText name attributes (unifyBreaksString t) (unifiedAll nodes) (unifyBreaks rest) := by
  have none : (unifiedAll nodes).isEmpty = nodes.isEmpty := by cases nodes <;> rfl
  have less : '<' ≠ '\r' := by decide
  have slash : '/' ≠ '\r' := by decide
  have angle : '>' ≠ '\r' := by decide
  unfold rawText
  rw [unifyBreaksString_isEmpty, none]
  split
  · exact rawTag_unified named given
  · rw [rawTag_unified named given, unifyBreaks_escapedText (writeAll_breaks .less).fresh,
      writeAll_unified each .less, unifyBreaks_cons less, unifyBreaks_cons slash, unifyBreaks_quiet named.quiet,
      unifyBreaks_cons angle]

theorem Node.Raw.unifies (raw : n.Raw) : Unifies [] n := by
  induction raw with
  | @element name attributes text children bare named bareAll given _ ih =>
    intro rest fresh
    have less : '<' ≠ '\r' := by decide
    have after := write_raw (unifyBreaksString text) (unifiedAll children) (unifyBreaks rest) bare bareAll
    rw [write_raw text children rest bare bareAll, unifyBreaks_cons less, rawText_unified named given ih]
    exact after.symm

theorem Node.Raw.unified (raw : n.Raw) : n.unified.Raw := by
  induction raw with
  | element bare named bareAll given _ ih =>
    refine .element bare named bareAll given ?_
    rw [unifiedAll_map]
    exact List.forall_mem_map.mpr ih

mutual
theorem stems_unified : (n m : Node) → n.unified.Stems m → n.Stems m
  | .element _ _ _ children _, .element _ _ _ children' _, stems =>
    ⟨stems.1, stems.2.1, allStem_unified children children' stems.2.2⟩
  | .element _ _ _ _ _, .comment _ _, stems => stems.elim
  | .comment _ _, .comment _ _, stems => stems.elim
  | .comment _ _, .element _ _ _ _ _, stems => stems.elim

theorem allStem_unified : (nodes found : List Node) → AllStem (unifiedAll nodes) found → AllStem nodes found
  | [], [], _ => trivial
  | n :: rest, m :: rest', stems => ⟨stems_unified n m stems.1, allStem_unified rest rest' stems.2⟩
  | [], _ :: _, stems => stems.elim
  | _ :: _, [], stems => stems.elim
end

theorem Node.Raw.bare (raw : n.Raw) : ∀ name ∈ n.names, name.space = none := by
  induction raw with
  | element bare _ bareAll _ _ ih =>
    intro name member
    rcases List.mem_append.mp member with own | below
    · rcases List.mem_cons.mp own with rfl | given
      · exact bare
      · obtain ⟨a, among, rfl⟩ := List.mem_map.mp given
        exact bareAll a among
    · obtain ⟨m, among, inside⟩ := mem_namesAll.mp below
      exact ih m among name inside

theorem addNames_bare {names : List Name} {marks : Marks} (bare : ∀ name ∈ names, name.space = none) :
    names.foldl addName marks = marks := by
  induction names with
  | nil => rfl
  | cons name names ih =>
    obtain ⟨own, others⟩ := List.forall_mem_cons.mp bare
    have same : addName marks name = marks := by rw [addName, own]
    rw [List.foldl_cons, same, ih others]

theorem toText_raw (raw : n.Raw) : n.toText = n.write [] [] := by
  have none : n.collectMarks [] = [] := by
    rw [Node.collectMarks_names, addNames_bare raw.bare]
  have undeclared : Marks.declarations [] = [] := by simp [Marks.declarations]
  rw [Node.toText, none, undeclared]

-- What is read of a raw document comes from the tree that it was written from.
theorem parse?_comes (raw : n.Raw) (labelled : Label n.label) (read : parse? keep n.toText = some m) :
    ComesFrom n.unified m := by
  have sound : ReadRaw keep n.unified := raw.unified.read
  rw [toText_raw raw] at read
  cases raw with
  | @element name attributes text children bare named bareAll given below =>
    have each : ∀ n ∈ children, Unifies [] n := fun n member => (below n member).unifies
    have written := write_raw text children [] bare bareAll
    have unified : unifyBreaks (rawText name attributes text children [])
        = rawText name attributes (unifyBreaksString text) (unifiedAll children) [] :=
      rawText_unified named given each
    have whole := write_raw (unifyBreaksString text) (unifiedAll children) [] bare bareAll
    obtain ⟨c, label, chars, starts⟩ := labelled.starts
    have begins : Begins (rawText name attributes (unifyBreaksString text) (unifiedAll children) []) := by
      have label : name.label.toList = c :: label := chars
      unfold rawText rawTag
      rw [label]
      split <;> exact ⟨c, _, rfl, starts⟩
    rw [List.append_nil] at written
    rw [written] at read
    rw [parse?_begins (parse?_allowed read) unified begins] at read
    obtain ⟨⟨root, behind⟩, element, read⟩ := Option.bind_eq_some_iff.mp read
    obtain ⟨_, _, read⟩ := Option.bind_eq_some_iff.mp read
    obtain ⟨_, read⟩ := Option.ite_none_right_eq_some.mp read
    cases read
    exact (sound _ _ _ _ _ _ whole element).1

theorem parse?_raw (raw : n.Raw) (labelled : Label n.label) (read : parse? keep n.toText = some m) : n.Stems m :=
  stems_unified n m (parse?_comes raw labelled read).stems

/-! ### What is kept in a canonical form -/

mutual
theorem stems_alike : (n m l : Node) → n.Stems m → m.alike l = true → n.Stems l
  | .element _ _ _ children _, .element _ _ _ children' _, .element _ _ _ children'' _, stems, same => by
    simp only [Node.alike, Bool.and_eq_true, decide_eq_true_eq] at same
    obtain ⟨⟨⟨⟨rfl, rfl⟩, _⟩, below⟩, _⟩ := same
    exact ⟨stems.1, stems.2.1, allStem_alike children children' children'' stems.2.2 below⟩
  | .element _ _ _ _ _, .element _ _ _ _ _, .comment _ _, _, same => by simp [Node.alike] at same
  | .element _ _ _ _ _, .comment _ _, _, stems, _ => stems.elim
  | .comment _ _, .comment _ _, _, stems, _ => stems.elim
  | .comment _ _, .element _ _ _ _ _, _, stems, _ => stems.elim

theorem allStem_alike : (nodes found more : List Node) → AllStem nodes found → allAlike found more = true →
    AllStem nodes more
  | [], [], [], _, _ => trivial
  | n :: rest, m :: rest', l :: rest'', stems, same => by
    simp only [allAlike, Bool.and_eq_true] at same
    exact ⟨stems_alike n m l stems.1 same.1, allStem_alike rest rest' rest'' stems.2 same.2⟩
  | [], _ :: _, _, stems, _ => stems.elim
  | _ :: _, [], _, stems, _ => stems.elim
  | [], [], _ :: _, _, same => by simp [allAlike] at same
  | _ :: _, _ :: _, [], _, same => by simp [allAlike] at same
end

mutual
theorem stems_inDefault (default : Option String) : (n m : Node) → n.Stems m → n.Stems (m.inDefault default).unified
  | .element _ _ _ children _, .element _ _ _ children' _, stems => by
    obtain ⟨w, proper, spelled, label⟩ := stems.1
    exact ⟨⟨w, proper, spelled, label⟩, stems.2.1, allStem_inDefault default children children' stems.2.2⟩
  | .element _ _ _ _ _, .comment _ _, stems => stems.elim
  | .comment _ _, .comment _ _, stems => stems.elim
  | .comment _ _, .element _ _ _ _ _, stems => stems.elim

theorem allStem_inDefault (default : Option String) : (nodes found : List Node) → AllStem nodes found →
    AllStem nodes (unifiedAll (inDefaultAll default found))
  | [], [], _ => trivial
  | n :: rest, m :: rest', stems =>
    ⟨stems_inDefault default n m stems.1, allStem_inDefault default rest rest' stems.2⟩
  | [], _ :: _, stems => stems.elim
  | _ :: _, [], stems => stems.elim
end

mutual
theorem stems_spelled : (n m : Node) → n.Stems m → ∀ name ∈ n.names, name.Spelled
  | .element name attributes _ children _, .element _ _ _ children' _, stems => by
    obtain ⟨⟨w, proper, spelled, _⟩, given, below⟩ := stems
    intro other member
    rcases List.mem_append.mp member with own | inside
    · rcases List.mem_cons.mp own with rfl | among
      · exact ⟨w, proper, spelled⟩
      · obtain ⟨a, held, rfl⟩ := List.mem_map.mp among
        exact given.spelled a held
    · exact allStem_spelled children children' below other inside
  | .element _ _ _ _ _, .comment _ _, stems => stems.elim
  | .comment _ _, .comment _ _, stems => stems.elim
  | .comment _ _, .element _ _ _ _ _, stems => stems.elim

theorem allStem_spelled : (nodes found : List Node) → AllStem nodes found → ∀ name ∈ namesAll nodes, name.Spelled
  | [], [], _ => by simp [namesAll]
  | n :: rest, m :: rest', stems => by
    rw [namesAll, List.forall_mem_append]
    exact ⟨stems_spelled n m stems.1, allStem_spelled rest rest' stems.2⟩
  | [], _ :: _, stems => stems.elim
  | _ :: _, [], stems => stems.elim
end

end InlineProject.Xml
