import Mathlib
import InlineProject.Proofs.DraftedValues
/-!
What becomes of the values of data. Each one that nothing is written over has a place of its own in the project: an
attribute or the text of an element, which holds its text. So every leaf is there, unless it stands in a field whose
name comes again, once it is a text or once its mark is exchanged, or in a value that another one is written over.
-/

namespace InlineProject

/-! ### Places in markup -/

namespace Xml

open Lines

variable {default : Option String} {n m : Node} {nodes : List Node}

def Slot.value : Slot → String
  | .given value => value
  | .text _ value => value

def Slot.unified : Slot → Slot
  | .given value => .given value
  | .text beside value => .text beside (unifyBreaksString value)

-- An attribute stays what it is; beside a child one blank text is as good as another.
inductive Slot.Alike : Slot → Slot → Prop
  | given (value : String) : Slot.Alike (.given value) (.given value)
  | text {beside : Bool} {value found : String} (same : sameSlot beside value found = true) :
      Slot.Alike (.text beside value) (.text beside found)

mutual
theorem slots_unified : (n : Node) → n.unified.slots = n.slots.map Slot.unified
  | .comment _ _ => rfl
  | .element _ attributes _ children _ => by
    have same : (unifiedAll children).isEmpty = children.isEmpty := by cases children <;> rfl
    have given : (attributes.map fun a => Slot.given a.2).map Slot.unified = attributes.map fun a => .given a.2 := by
      rw [List.map_map]
      rfl
    rw [Node.unified, Node.slots, Node.slots, List.map_append, given, List.map_cons, slotsAll_unified children, same]
    rfl

theorem slotsAll_unified : (nodes : List Node) → slotsAll (unifiedAll nodes) = (slotsAll nodes).map Slot.unified
  | [] => rfl
  | n :: rest => by rw [unifiedAll, slotsAll, slotsAll, slots_unified n, slotsAll_unified rest, List.map_append]
end

mutual
theorem undeclared_unified : (n : Node) → n.Undeclared → n.unified.Undeclared
  | .comment _ _, _ => trivial
  | .element _ _ _ children _, free => ⟨free.1, allUndeclared_unified children free.2⟩

theorem allUndeclared_unified : (nodes : List Node) → AllUndeclared nodes → AllUndeclared (unifiedAll nodes)
  | [], _ => trivial
  | n :: rest, free => ⟨undeclared_unified n free.1, allUndeclared_unified rest free.2⟩
end

mutual
theorem slots_inDefault (default : Option String) : (n : Node) → (n.inDefault default).slots = n.slots
  | .comment _ _ => rfl
  | .element _ _ _ children _ => by
    have same : (inDefaultAll default children).isEmpty = children.isEmpty := by cases children <;> rfl
    rw [Node.inDefault, Node.slots, Node.slots, slotsAll_inDefault default children, same]

theorem slotsAll_inDefault (default : Option String) : (nodes : List Node) →
    slotsAll (inDefaultAll default nodes) = slotsAll nodes
  | [] => rfl
  | n :: rest => by rw [inDefaultAll, slotsAll, slotsAll, slots_inDefault default n, slotsAll_inDefault default rest]
end

mutual
theorem slots_alike : (n m : Node) → n.alike m = true → List.Forall₂ Slot.Alike n.slots m.slots
  | .comment _ _, .comment _ _, _ => .nil
  | .element _ attributes _ children _, .element _ _ _ children' _, same => by
    simp only [Node.alike, Bool.and_eq_true, decide_eq_true_eq] at same
    obtain ⟨⟨⟨⟨_, rfl⟩, inside⟩, below⟩, _⟩ := same
    have given : List.Forall₂ Slot.Alike (attributes.map fun a => .given a.2) (attributes.map fun a => .given a.2) := by
      rw [List.forall₂_map_left_iff, List.forall₂_map_right_iff]
      exact List.forall₂_same.mpr fun a _ => .given a.2
    rw [Node.slots, Node.slots, ← allAlike_isEmpty below]
    exact List.rel_append given (.cons (.text inside) (slotsAll_alike children children' below))
  | .comment _ _, .element _ _ _ _ _, same => by simp [Node.alike] at same
  | .element _ _ _ _ _, .comment _ _, same => by simp [Node.alike] at same

theorem slotsAll_alike : (nodes others : List Node) → allAlike nodes others = true →
    List.Forall₂ Slot.Alike (slotsAll nodes) (slotsAll others)
  | [], [], _ => .nil
  | n :: rest, m :: rest', same => by
    simp only [allAlike, Bool.and_eq_true] at same
    exact List.rel_append (slots_alike n m same.1) (slotsAll_alike rest rest' same.2)
  | [], _ :: _, same => by simp [allAlike] at same
  | _ :: _, [], same => by simp [allAlike] at same
end

-- Unifying line breaks again changes nothing.
theorem Slot.Alike.unified {written found : Slot} (alike : Slot.Alike written.unified found) :
    Slot.Alike written.unified found.unified := by
  cases written with
  | given value =>
    cases alike
    exact .given value
  | text beside value =>
    cases alike with
    | @text _ _ found same =>
      have quiet : '\r' ∉ (unifyBreaksString value).toList := by
        rw [unifyBreaksString_toList]
        exact unifyBreaks_noReturn
      have still : sameSlot beside found (unifyBreaksString found) = true := by
        rw [sameSlot_unified, ← quietSlot_same same]
        simp [quietSlot, quiet]
      exact .text (sameSlot_trans same still)

end Xml

namespace Project

open Json (itemLeaves fieldLeaves)
open Xml

variable {d : Draft} {key : Text} {fields : List (Text × Json)}

/-! ### What is read of a draft -/

-- The name of a declaration of a namespace.
def Declaring (key : Text) : Prop := ∃ label, Declares label ∧ key = Text.ofString label

mutual
theorem toNode_slots : (d : Draft) → {n : Node} → (∀ key ∈ d.names, InertKey key) →
    (∀ key ∈ d.given, ¬Declaring key) → toNode d = .ok n →
    n.Undeclared ∧ List.Forall₂ (fun text slot => text = Text.ofString slot.value) d.texts n.slots
  | .element key given text children, n, inert, undeclared, made => by
    rw [toNode] at made
    obtain ⟨_, _, made⟩ := bind_parts made
    obtain ⟨attributes, mapped, made⟩ := bind_parts made
    obtain ⟨name, _, made⟩ := bind_parts made
    obtain ⟨inside, read, made⟩ := bind_parts made
    obtain ⟨nodes, below, made⟩ := bind_parts made
    cases made
    have keys : ∀ a ∈ given, InertKey a.1 ∧ ¬Declaring a.1 := fun a member =>
      ⟨inert a.1 (List.mem_append_left _ (List.mem_cons_of_mem _ (List.mem_map_of_mem member))),
        undeclared a.1 (List.mem_append_left _ (List.mem_map_of_mem member))⟩
    have each : List.Forall₂ (fun (a : Text × Text) (b : Name × String) =>
        ¬Declares b.1.label ∧ a.2 = Text.ofString b.2) given attributes := by
      refine ((List.forall₂_and_left _ _).mpr ⟨keys, mapM_parts.mp mapped⟩).imp ?_
      rintro ⟨key, value⟩ b ⟨⟨inert, undeclared⟩, made⟩
      obtain ⟨_, read, made⟩ := bind_parts made
      obtain ⟨_, named, made⟩ := bind_parts made
      obtain ⟨_, shown, made⟩ := bind_parts made
      cases made
      have spelled := (nameOf_writes inert read named).spelled
      exact ⟨fun declares => undeclared ⟨_, declares, spelled⟩, stringOf_exact shown⟩
    obtain ⟨free, slots⟩ := toNodes_slots children (fun key member => inert key (List.mem_append_right _ member))
      (fun key member => undeclared key (List.mem_append_right _ member)) below
    constructor
    · refine ⟨fun b member => ?_, free⟩
      obtain ⟨_, _, held, _⟩ := (forall₂_mem each).2 b member
      exact held
    · refine List.rel_append ?_ (.cons (stringOf_exact read) slots)
      rw [List.forall₂_map_left_iff, List.forall₂_map_right_iff]
      exact each.imp fun _ _ => And.right

theorem toNodes_slots : (drafts : List Draft) → {nodes : List Node} → (∀ key ∈ allNames drafts, InertKey key) →
    (∀ key ∈ allGiven drafts, ¬Declaring key) → toNodes drafts = .ok nodes →
    AllUndeclared nodes ∧
      List.Forall₂ (fun text slot => text = Text.ofString slot.value) (allTexts drafts) (slotsAll nodes)
  | [], nodes, _, _, made => by
    cases made
    exact ⟨trivial, .nil⟩
  | d :: rest, nodes, inert, undeclared, made => by
    rw [allNames, List.forall_mem_append] at inert
    rw [allGiven, List.forall_mem_append] at undeclared
    rw [toNodes] at made
    obtain ⟨n, first, made⟩ := bind_parts made
    obtain ⟨others, later, made⟩ := bind_parts made
    cases made
    obtain ⟨free, slots⟩ := toNode_slots d inert.1 undeclared.1 first
    obtain ⟨freeAll, slotsAll⟩ := toNodes_slots rest inert.2 undeclared.2 later
    exact ⟨⟨free, freeAll⟩, List.rel_append slots slotsAll⟩
end

-- The text of a value stands in a place; line breaks are unified in the text of an element.
def Holds (j : Json) (slot : Slot) : Prop :=
  ∃ written : Slot, scalarText j = .ok (Text.ofString written.value) ∧ written.unified.Alike slot

theorem forall₂_through {α β γ : Type} {r : α → β → Prop} {s : β → γ → Prop} {as : List α} {bs : List β} {cs : List γ}
    (one : List.Forall₂ r as bs) (two : List.Forall₂ s bs cs) : List.Forall₂ (fun a c => ∃ b, r a b ∧ s b c) as cs := by
  induction one generalizing cs with
  | nil =>
    cases two
    exact .nil
  | cons first _ ih =>
    cases two with
    | cons second others => exact .cons ⟨_, first, second⟩ (ih others)

theorem ofJson_values {xml : List Char} (inert : ∀ key ∈ namesOf fields, InertKey key)
    (undeclared : ∀ key ∈ attributesOf fields, ¬Declaring key) (distinct : Json.FieldsDistinct fields)
    (made : ofJson (.obj fields) = .ok (some xml)) :
    ∃ again values, ofMarkup? xml = some again ∧ List.Forall₂ Holds values again.slots ∧
      itemLeaves values + overwritten (rootFields fields) = fieldLeaves fields := by
  obtain ⟨d, written, n, drafted, built, read, rfl⟩ := ofJson_parts made
  obtain ⟨root, label, other⟩ := draft_root drafted built read
  obtain ⟨values, shown, leaves⟩ := draftOf_values distinct drafted
  have all := draftOf_inert inert drafted
  obtain ⟨raw, _⟩ := toNode_raw d all built
  obtain ⟨free, texts⟩ := toNode_slots d all (fun key member => undeclared key (mem_draftOf_given drafted member)) built
  have labelled : Label written.label := by
    rw [toNode_label (draftOf_name drafted) built]
    decide
  have unified : n.slots = written.slots.map Slot.unified := by
    rw [(parse?_comes raw labelled read).slots (undeclared_unified written free), slots_unified]
  have settled := slots_alike n (n.indent 0) (n.indent_alike 0)
  rw [unified, List.forall₂_map_left_iff] at settled
  refine ⟨_, values, ofMarkup?_canonical root label other, ?_, leaves⟩
  rw [slots_unified, slots_inDefault, List.forall₂_map_right_iff]
  refine (forall₂_through shown (forall₂_through texts settled)).imp ?_
  rintro j slot ⟨text, wrote, place, rfl, alike⟩
  exact ⟨place, wrote, alike.unified⟩

/-! ### Descriptors -/

-- The document, its plain form and its data with exchanged marks.
theorem dataOf?_parts {n : Normalizer} {s : String} (structured : n.mode = .structured) (data : dataOf? n s = some fields) :
    ∃ loaded plain, Yaml.load s.toList = .ok loaded ∧ Normalizer.isEmptyTop loaded.top = false ∧
      loaded.toJson = .ok plain ∧ n.exchange plain = .ok (.obj fields) ∧ Attribute.exchange plain = .obj fields := by
  unfold dataOf? at data
  cases load : Yaml.load s.toList with
  | error e =>
    rw [load] at data
    cases data
  | ok loaded =>
    rw [load] at data
    dsimp only at data
    obtain ⟨some, data⟩ := Option.ite_none_left_eq_some.mp data
    cases json : loaded.toJson with
    | error e =>
      rw [json] at data
      cases data
    | ok plain =>
      have exchanged : n.exchange plain = .ok (Attribute.exchange plain) := by
        unfold Normalizer.exchange
        rw [structured]
      rw [json] at data
      dsimp only at data
      rw [exchanged] at data
      refine ⟨loaded, plain, rfl, by simpa using some, json, ?_⟩
      rw [exchanged]
      cases shape : Attribute.exchange plain with
      | obj fields' =>
        rw [shape] at data
        cases data
        exact ⟨rfl, rfl⟩
      | _ =>
        rw [shape] at data
        cases data

-- Every leaf of a document has an occurrence of its own in the project, but for the leaves of fields whose names come
-- again and of values that another one is written over.
theorem leaves_kept {n : Normalizer} {s : String} {xml : List Char} (structured : n.mode = .structured)
    (data : dataOf? n s = some fields) (inert : ∀ key ∈ namesOf fields, InertKey key)
    (undeclared : ∀ key ∈ attributesOf fields, ¬Declaring key) (made : ofJson (.obj fields) = .ok (some xml)) :
    n.documentToXml s = .ok (String.ofList xml) ∧
    ∃ loaded whole again values, Yaml.load s.toList = .ok loaded ∧ loaded.Spread whole ∧ ofMarkup? xml = some again ∧
      List.Forall₂ Holds values again.slots ∧
      itemLeaves values + (overwritten (rootFields fields) + (whole.renamed id).shadowed Attribute.exchangeName
        + whole.shadowed id) = whole.leaves := by
  obtain ⟨loaded, plain, load, some, json, exchanged, data⟩ := dataOf?_parts structured data
  constructor
  · unfold Normalizer.documentToXml Normalizer.readDocument
    rw [load]
    dsimp only
    rw [if_neg (by simp [some]), json]
    dsimp only
    rw [exchanged]
    dsimp only
    rw [made]
    rfl
  obtain ⟨whole, spread, rfl⟩ := Yaml.Loaded.toJson_spread json
  rw [Attribute.exchange_renamed] at data
  have distinct : (Json.obj fields).Distinct := data ▸ Json.renamed_distinct _
  obtain ⟨again, values, read, holds, leaves⟩ := ofJson_values inert undeclared distinct.2 made
  refine ⟨loaded, whole, again, values, load, spread, read, holds, ?_⟩
  have renamed : fieldLeaves fields + (whole.renamed id).shadowed Attribute.exchangeName = (whole.renamed id).leaves := by
    rw [← Json.renamed_leaves (whole.renamed id), data]
    rfl
  rw [← Json.renamed_leaves whole, ← renamed, ← leaves]
  abel

theorem declaring_begins (declaring : Declaring key) : key.head? = some (.char 'x') := by
  obtain ⟨label, ⟨w, bound, chars⟩, rfl⟩ := declaring
  rw [Text.ofString, chars]
  unfold WrittenName.bound? at bound
  unfold WrittenName.chars
  split at bound
  · rename_i prefixed
    rw [prefixed]
    rfl
  · cases bound
  · rename_i bare
    split at bound
    · rename_i named
      rw [bare, named]
      rfl
    · cases bound

theorem inertKey_ofString {s : String} (inside : s.toList.all isInert = true)
    (first : ∀ c ∈ s.toList.head?, c ≠ '!' ∧ c ≠ '?' ∧ c ≠ '\x7b') : InertKey (Text.ofString s) := by
  constructor
  · intro c member
    obtain ⟨x, among, same⟩ := List.mem_map.mp member
    cases same
    exact List.all_eq_true.mp inside c among
  · intro c member
    rw [Text.ofString, Text.ofChars, List.head?_map] at member
    obtain ⟨x, among, same⟩ := Option.map_eq_some_iff.mp member
    cases same
    exact first c among

-- A list of elements, an attribute with the text of data and one with a text.
def mixedDescriptor : String := "Item: [x, \x7b_b: [1, null]\x7d]\n_c: y\nD: \x7b\"#text\": z\x7d"

def mixedProject : List Char :=
  "<Project c=\"y\">\n  <Item>x</Item>\n  <Item b=\"[1, null]\" />\n  <D>z</D>\n</Project>".toList

theorem leaves_kept_mixed : ∃ fields, dataOf? ⟨"", .structured⟩ mixedDescriptor = some fields ∧
    Normalizer.documentToXml ⟨"", .structured⟩ mixedDescriptor = .ok (String.ofList mixedProject) ∧
    ∃ loaded whole again values, Yaml.load mixedDescriptor.toList = .ok loaded ∧ loaded.Spread whole ∧
      ofMarkup? mixedProject = some again ∧ List.Forall₂ Holds values again.slots ∧
      itemLeaves values + (overwritten (rootFields fields) + (whole.renamed id).shadowed Attribute.exchangeName
        + whole.shadowed id) = whole.leaves := by
  have data : (dataOf? ⟨"", .structured⟩ mixedDescriptor).any (fun fields =>
      (namesOf fields).all (fun key => key = Text.ofString "Item" || key = Text.ofString "b" || key = Text.ofString "c"
        || key = Text.ofString "D") &&
      (attributesOf fields).all (fun key => key.head? ≠ some (.char 'x')) &&
      ofJson (.obj fields) = .ok (some mixedProject)) = true := by
    decide +kernel
  obtain ⟨fields, found, checks⟩ := (Option.any_eq_true _ _).mp data
  simp only [Bool.and_eq_true, List.all_eq_true, Bool.or_eq_true, decide_eq_true_eq] at checks
  obtain ⟨⟨named, free⟩, made⟩ := checks
  refine ⟨fields, found, leaves_kept rfl found (fun key member => ?_) (fun key member declaring => ?_) made⟩
  · rcases named key member with ((rfl | rfl) | rfl) | rfl
    all_goals
      refine inertKey_ofString (by decide) ?_
      rintro _ ⟨⟩
      decide
  · exact free key member (declaring_begins declaring)

-- Keys that differ and have the same text.
def twiceDescriptor : String := "true: a\n\"true\": b"

def twiceLoaded : Yaml.Loaded where
  values := #[some (.dict [(.bool true, 2), (.text (Text.ofString "true"), 4)]), some (.datum (.bool true)),
    some (.datum (.text (Text.ofString "a"))), some (.datum (.text (Text.ofString "true"))),
    some (.datum (.text (Text.ofString "b")))]
  root := some 0

theorem load_twice : Yaml.load twiceDescriptor.toList = .ok twiceLoaded := by
  have parts : (Yaml.load twiceDescriptor.toList).toOption.map (fun l => (l.values.toList, l.root))
      = some (twiceLoaded.values.toList, twiceLoaded.root) := by
    decide +kernel
  cases loaded : Yaml.load twiceDescriptor.toList with
  | error e =>
    rw [loaded] at parts
    cases parts
  | ok l =>
    rw [loaded] at parts
    obtain ⟨values, root⟩ := Prod.mk.inj (Option.some.inj parts)
    obtain ⟨⟨list⟩, _⟩ := l
    cases values
    cases root
    rfl

theorem spread_twice : twiceLoaded.Spread
    (.obj [(Text.ofString "true", .ofString "a"), (Text.ofString "true", .ofString "b")]) := by
  have entry : ∀ p ∈ [((Yaml.Datum.bool true, 2), (Text.ofString "true", Json.ofString "a")),
      ((.text (Text.ofString "true"), 4), (Text.ofString "true", .ofString "b"))],
      p.1.1.fieldName = .ok p.2.1 ∧ twiceLoaded.Spreads p.1.2 p.2.2 :=
    List.forall_mem_cons.mpr ⟨⟨rfl, .datum (d := .text (Text.ofString "a")) rfl rfl⟩,
      List.forall_mem_singleton.mpr ⟨rfl, .datum (d := .text (Text.ofString "b")) rfl rfl⟩⟩
  exact .dict rfl rfl (fun p member => (entry p member).1) fun p member => (entry p member).2

-- Two keys with the same text, two names with the same mark, two texts of one element, a blank text beside an element
-- and a declaration of a namespace.
theorem leaves_kept_twice :
    (∃ loaded whole, Yaml.load twiceDescriptor.toList = .ok loaded ∧ loaded.Spread whole ∧
      whole.leaves = {.ofString "a", .ofString "b"}) ∧
    Normalizer.documentToXml ⟨"", .structured⟩ twiceDescriptor = .ok "<Project>\n  <true>b</true>\n</Project>" ∧
    Normalizer.documentToXml ⟨"", .structured⟩ "_a: x\n\"@a\": y" = .ok "<Project a=\"y\" />" ∧
    Normalizer.documentToXml ⟨"", .structured⟩ "Project: [a, b]" = .ok "<Project>b</Project>" ∧
    Normalizer.documentToXml ⟨"", .structured⟩ "\"#text\": \" \"\nA: b" = .ok "<Project>\n  <A>b</A>\n</Project>" ∧
    Normalizer.documentToXml ⟨"", .structured⟩ "\"_xmlns:p\": urn:b" = .ok "<Project />" := by
  refine ⟨?_, by decide +kernel, by decide +kernel, by decide +kernel, by decide +kernel, by decide +kernel⟩
  exact ⟨_, _, load_twice, spread_twice, rfl⟩

end Project
end InlineProject
