import Mathlib
import InlineProject.Descriptor.Normalize
import InlineProject.Proofs.RawMarkup
/-!
How names are checked. They are written into the markup as they came, and it is the reader of the markup that
finds the ones that are no names. That is a check of every name by itself as long as none of them holds a
space, an end of a tag or an equals sign, or begins a declaration, an instruction or a namespace: then data
with a name that is none make no project, and a project that is made has the elements of the data.
-/

namespace InlineProject.Project

open Xml

variable {d d' : Draft} {key : Text} {fields : List (Text × Json)}

/-! ### The names of data -/

mutual
-- The names of the elements and attributes that a value brings into the element that it is the value of.
def namesIn : Json → List Text
  | .obj fields => namesInFields fields
  | .arr items => namesInItems items
  | _ => []

def namesInItems : List Json → List Text
  | [] => []
  | item :: rest => namesIn item ++ namesInItems rest

def namesInFields : List (Text × Json) → List Text
  | [] => []
  | (key, value) :: rest =>
      (if isAttribute key then [key.tail]
        else if key = textField then []
        else namesUnder key value) ++ namesInFields rest

-- An empty list makes no element.
def namesUnder (key : Text) : Json → List Text
  | .arr items => namesUnderAll key items
  | .obj fields => key :: namesInFields fields
  | _ => [key]

def namesUnderAll (key : Text) : List Json → List Text
  | [] => []
  | item :: rest => namesUnder key item ++ namesUnderAll key rest
end

def namesOf (fields : List (Text × Json)) : List Text :=
  match fields with
  | [(key, value)] => if key = Text.ofString rootLabel then namesIn value else namesInFields fields
  | fields => namesInFields fields

-- A name, perhaps with a prefix.
def Named (key : Text) : Prop := ∃ w : WrittenName, w.Proper ∧ key = Text.ofChars w.chars

-- A text that is read as one name or not at all.
structure InertKey (key : Text) : Prop where
  inside : ∀ c, .char c ∈ key → isInert c = true
  first : ∀ c, key.head? = some (.char c) → c ≠ '!' ∧ c ≠ '?' ∧ c ≠ '\x7b'

/-! ### The names of drafts -/

mutual
def Draft.names : Draft → List Text
  | .element name attributes _ children => name :: attributes.map Prod.fst ++ allNames children

def allNames : List Draft → List Text
  | [] => []
  | d :: rest => d.names ++ allNames rest
end

theorem mem_allNames {drafts : List Draft} : key ∈ allNames drafts ↔ ∃ d ∈ drafts, key ∈ d.names := by
  induction drafts with
  | nil => simp [allNames]
  | cons d drafts ih => simp [allNames, ih]

@[simp] theorem withText_names {text : Text} : (d.withText text).names = d.names := by
  cases d
  rfl

theorem mem_withChild_names {child : Draft} :
    key ∈ (d.withChild child).names ↔ key ∈ d.names ∨ key ∈ child.names := by
  cases d
  simp only [Draft.withChild, Draft.names, List.mem_append, mem_allNames, List.mem_singleton]
  grind

theorem mem_putAttribute {name value : Text} {given : List (Text × Text)} :
    key ∈ (Draft.putAttribute name value given).map Prod.fst ↔ key ∈ given.map Prod.fst ∨ key = name := by
  induction given with
  | nil => simp [Draft.putAttribute]
  | cons a given ih =>
    obtain ⟨other, old⟩ := a
    rw [Draft.putAttribute]
    split
    · rename_i same
      subst same
      simp only [List.map_cons, List.mem_cons]
      tauto
    · simp only [List.map_cons, List.mem_cons, ih]
      tauto

theorem mem_withAttribute_names {name value : Text} :
    key ∈ (d.withAttribute name value).names ↔ key ∈ d.names ∨ key = name := by
  cases d
  simp only [Draft.withAttribute, Draft.names, List.mem_append, List.mem_cons, mem_putAttribute]
  tauto

mutual
theorem mem_fill_names {d d' : Draft} : (j : Json) → fill d j = .ok d' →
    (key ∈ d'.names ↔ key ∈ d.names ∨ key ∈ namesIn j)
  | .obj fields, filled => mem_fillFields_names fields (by rwa [fill] at filled)
  | .arr items, filled => mem_fillItems_names items (by rwa [fill] at filled)
  | .null, filled => by
    cases filled
    simp [namesIn]
  | .bool _, filled | .int _, filled | .real _, filled | .str _, filled => by
    rw [fill] at filled
    · obtain ⟨_, _, rfl⟩ := map_parts filled
      simp [namesIn]
    all_goals simp

theorem mem_fillItems_names {d d' : Draft} : (items : List Json) → fillItems d items = .ok d' →
    (key ∈ d'.names ↔ key ∈ d.names ∨ key ∈ namesInItems items)
  | [], filled => by
    cases filled
    simp [namesInItems]
  | item :: rest, filled => by
    rw [fillItems] at filled
    obtain ⟨next, first, filled⟩ := bind_parts filled
    rw [mem_fillItems_names rest filled, mem_fill_names item first, namesInItems, List.mem_append, or_assoc]

theorem mem_fillFields_names {d d' : Draft} : (fields : List (Text × Json)) → fillFields d fields = .ok d' →
    (key ∈ d'.names ↔ key ∈ d.names ∨ key ∈ namesInFields fields)
  | [], filled => by
    cases filled
    simp [namesInFields]
  | (name, value) :: rest, filled => by
    rw [fillFields] at filled
    rw [namesInFields, List.mem_append, ← or_assoc]
    dsimp only at filled
    split at filled
    · obtain ⟨next, first, others⟩ := bind_parts filled
      obtain ⟨_, _, rfl⟩ := map_parts first
      rw [mem_fillFields_names rest others, if_pos ‹_›, mem_withAttribute_names, List.mem_singleton]
    · split at filled
      · obtain ⟨next, first, others⟩ := bind_parts filled
        obtain ⟨_, _, rfl⟩ := map_parts first
        rw [mem_fillFields_names rest others, if_neg ‹_›, if_pos ‹_›]
        simp
      · obtain ⟨next, first, others⟩ := bind_parts filled
        rw [mem_fillFields_names rest others, if_neg ‹_›, if_neg ‹_›, mem_addChildren_names name value first]

theorem mem_addChildren_names {d d' : Draft} (name : Text) : (j : Json) → addChildren d name j = .ok d' →
    (key ∈ d'.names ↔ key ∈ d.names ∨ key ∈ namesUnder name j)
  | .arr items, added => mem_addItems_names name items (by rwa [addChildren] at added)
  | .obj fields, added => by
    rw [addChildren] at added
    obtain ⟨child, filled, rfl⟩ := map_parts added
    rw [mem_withChild_names, mem_fillFields_names fields filled, namesUnder, List.mem_cons]
    simp [Draft.empty, Draft.names, allNames]
  | .null, added => by
    cases added
    rw [mem_withChild_names]
    simp [Draft.empty, Draft.names, allNames, namesUnder]
  | .bool _, added | .int _, added | .real _, added | .str _, added => by
    rw [addChildren] at added
    · obtain ⟨_, _, rfl⟩ := map_parts added
      rw [mem_withChild_names]
      simp [Draft.empty, Draft.names, allNames, namesUnder]
    all_goals simp

theorem mem_addItems_names {d d' : Draft} (name : Text) : (items : List Json) → addItems d name items = .ok d' →
    (key ∈ d'.names ↔ key ∈ d.names ∨ key ∈ namesUnderAll name items)
  | [], added => by
    cases added
    simp [namesUnderAll]
  | item :: rest, added => by
    rw [addItems] at added
    obtain ⟨next, first, added⟩ := bind_parts added
    rw [mem_addItems_names name rest added, mem_addChildren_names name item first, namesUnderAll, List.mem_append,
      or_assoc]
end

theorem mem_draftOf_names (drafted : draftOf fields = .ok d) :
    key ∈ d.names ↔ key = Text.ofString rootLabel ∨ key ∈ namesOf fields := by
  have root : key ∈ (Draft.empty (Text.ofString rootLabel)).names ↔ key = Text.ofString rootLabel := by
    simp [Draft.empty, Draft.names, allNames]
  rw [← root]
  unfold draftOf at drafted
  dsimp only at drafted
  rcases fields with _ | ⟨⟨name, value⟩, _ | ⟨second, rest⟩⟩
  · exact mem_fillFields_names _ drafted
  · unfold namesOf
    dsimp only at drafted ⊢
    split at drafted
    · rw [if_pos ‹_›]
      exact mem_fill_names _ drafted
    · rw [if_neg ‹_›]
      exact mem_fillFields_names _ drafted
  · exact mem_fillFields_names _ drafted

/-! ### What is written of a draft -/

theorem toString?_exact {t : Text} {s : String} (read : Text.toString? t = some s) : t = Text.ofString s := by
  obtain ⟨cs, chars, rfl⟩ := Option.map_eq_some_iff.mp read
  have each := mapM_exact.mp chars
  rw [Text.ofString, String.toList_ofList, Text.ofChars]
  clear read chars
  induction each with
  | nil => rfl
  | @cons p c _ _ first _ ih =>
    cases p with
    | char =>
      cases first
      rw [List.map_cons, ih]
    | half => cases first

theorem stringOf_exact {t : Text} {s : String} (read : stringOf t = .ok s) : t = Text.ofString s := by
  unfold stringOf at read
  split at read
  · cases read
    exact toString?_exact ‹_›
  · cases read

-- The name that is written for a key.
structure Writes (key : Text) (name : Name) : Prop where
  spelled : key = Text.ofString name.label
  bare : name.space = none
  inert : Inert name.label.toList

theorem nameOf_writes {s : String} {name : Name} (inert : InertKey key) (read : stringOf key = .ok s)
    (named : nameOf key = .ok name) : Writes key name := by
  cases stringOf_exact read
  have inside : ∀ c, c ∈ s.toList → isInert c = true := fun c member =>
    inert.inside c (List.mem_map_of_mem member)
  have first : ∀ c ∈ s.toList.head?, c ≠ '!' ∧ c ≠ '?' ∧ c ≠ '\x7b' := by
    intro c member
    apply inert.first c
    rw [Text.ofString, Text.ofChars, List.head?_map, member]
    rfl
  cases (nameOf_bare fun c member => (first c member).2.2).symm.trans named
  exact ⟨rfl, rfl, inside, fun c member => ⟨(first c member).1, (first c member).2.1⟩⟩

mutual
theorem toNode_raw : (d : Draft) → {n : Node} → (∀ key ∈ d.names, InertKey key) → toNode d = .ok n →
    n.Raw ∧ ∀ key ∈ d.names, ∃ name ∈ n.names, key = Text.ofString name.label
  | .element key given text children, n, inert, made => by
    rw [toNode] at made
    obtain ⟨_, read, made⟩ := bind_parts made
    obtain ⟨attributes, mapped, made⟩ := bind_parts made
    obtain ⟨name, named, made⟩ := bind_parts made
    obtain ⟨inside, _, made⟩ := bind_parts made
    obtain ⟨nodes, below, made⟩ := bind_parts made
    cases made
    have own : Writes key name := nameOf_writes (inert key (by simp [Draft.names])) read named
    have keys : ∀ a ∈ given, InertKey a.1 := fun a member =>
      inert a.1 (List.mem_append_left _ (List.mem_cons_of_mem _ (List.mem_map_of_mem member)))
    have each : List.Forall₂ (fun a b => Writes a.1 b.1) given attributes := by
      refine ((List.forall₂_and_left _ _).mpr ⟨keys, mapM_parts.mp mapped⟩).imp ?_
      rintro ⟨key, value⟩ b ⟨inert, made⟩
      obtain ⟨_, read, made⟩ := bind_parts made
      obtain ⟨_, named, made⟩ := bind_parts made
      obtain ⟨_, _, made⟩ := bind_parts made
      cases made
      exact nameOf_writes inert read named
    obtain ⟨written, writes⟩ := forall₂_mem each
    obtain ⟨raw, spelled⟩ := toNodes_raw children (fun key member => inert key (List.mem_append_right _ member)) below
    constructor
    · refine .element own.bare own.inert (fun b member => ?_) (fun b member => ?_) raw
      · obtain ⟨_, _, held⟩ := writes b member
        exact held.bare
      · obtain ⟨_, _, held⟩ := writes b member
        exact held.inert
    · intro other member
      rcases List.mem_append.mp member with here | behind
      · rcases List.mem_cons.mp here with rfl | among
        · exact ⟨name, by simp [Node.names], own.spelled⟩
        · obtain ⟨a, held, rfl⟩ := List.mem_map.mp among
          obtain ⟨b, inside, wrote⟩ := written a held
          exact ⟨b.1, List.mem_append_left _ (List.mem_cons_of_mem _ (List.mem_map_of_mem inside)), wrote.spelled⟩
      · obtain ⟨deeper, among, same⟩ := spelled other behind
        exact ⟨deeper, List.mem_append_right _ among, same⟩

theorem toNodes_raw : (drafts : List Draft) → {nodes : List Node} → (∀ key ∈ allNames drafts, InertKey key) →
    toNodes drafts = .ok nodes →
    (∀ n ∈ nodes, n.Raw) ∧ ∀ key ∈ allNames drafts, ∃ name ∈ namesAll nodes, key = Text.ofString name.label
  | [], nodes, _, made => by
    cases made
    simp [allNames]
  | d :: rest, nodes, inert, made => by
    rw [allNames, List.forall_mem_append] at inert
    rw [toNodes] at made
    obtain ⟨n, first, made⟩ := bind_parts made
    obtain ⟨others, later, made⟩ := bind_parts made
    cases made
    obtain ⟨raw, spelled⟩ := toNode_raw d inert.1 first
    obtain ⟨rawAll, spelledAll⟩ := toNodes_raw rest inert.2 later
    refine ⟨List.forall_mem_cons.mpr ⟨raw, rawAll⟩, ?_⟩
    intro key member
    rw [namesAll]
    rcases List.mem_append.mp member with own | behind
    · obtain ⟨name, among, same⟩ := spelled key own
      exact ⟨name, List.mem_append_left _ among, same⟩
    · obtain ⟨name, among, same⟩ := spelledAll key behind
      exact ⟨name, List.mem_append_right _ among, same⟩
end

/-! ### The check -/

theorem root_inert : InertKey (Text.ofString rootLabel) := by
  have inside : rootLabel.toList.all isInert = true := by decide
  constructor
  · intro c member
    obtain ⟨x, among, same⟩ := List.mem_map.mp member
    cases same
    exact List.all_eq_true.mp inside c among
  · rintro c ⟨⟩
    decide

theorem toNode_label {d : Draft} {written : Node} (named : d.name = Text.ofString rootLabel)
    (made : toNode d = .ok written) : written.label = rootLabel := by
  obtain ⟨key, given, text, children⟩ := d
  have same : key = Text.ofString rootLabel := named
  rw [toNode, same] at made
  obtain ⟨_, _, made⟩ := bind_parts made
  obtain ⟨_, _, made⟩ := bind_parts made
  obtain ⟨name, found, made⟩ := bind_parts made
  obtain ⟨_, _, made⟩ := bind_parts made
  obtain ⟨_, _, made⟩ := bind_parts made
  cases made
  cases nameOf_root.symm.trans found
  rfl

theorem draftOf_inert (inert : ∀ key ∈ namesOf fields, InertKey key) (drafted : draftOf fields = .ok d) :
    ∀ key ∈ d.names, InertKey key := by
  intro key member
  rcases (mem_draftOf_names drafted).mp member with rfl | among
  · exact root_inert
  · exact inert key among

-- A project comes from the elements of its data, and their names are names.
theorem ofJson_stems {xml : List Char} (inert : ∀ key ∈ namesOf fields, InertKey key)
    (made : ofJson (.obj fields) = .ok (some xml)) :
    ∃ d written again, draftOf fields = .ok d ∧ toNode d = .ok written ∧ ofMarkup? xml = some again ∧
      written.Stems again ∧ ∀ key ∈ namesOf fields, Named key := by
  obtain ⟨d, written, n, drafted, built, read, rfl⟩ := ofJson_parts made
  obtain ⟨root, label, other⟩ := draft_root drafted built read
  have all := draftOf_inert inert drafted
  obtain ⟨raw, spelled⟩ := toNode_raw d all built
  have labelled : Label written.label := by
    rw [toNode_label (draftOf_name drafted) built]
    decide
  have stems := parse?_raw raw labelled read
  refine ⟨d, written, _, drafted, built, ofMarkup?_canonical root label other, ?_, ?_⟩
  · exact stems_inDefault _ _ _ (stems_alike _ _ _ stems (n.indent_alike 0))
  · intro key member
    obtain ⟨name, among, rfl⟩ := spelled key ((mem_draftOf_names drafted).mpr (.inr member))
    obtain ⟨w, proper, same⟩ := stems_spelled _ _ stems name among
    exact ⟨w, proper, by rw [Text.ofString, same]⟩

-- The data that the text of a descriptor gives a project.
def dataOf? (n : Normalizer) (s : String) : Option (List (Text × Json)) :=
  match Yaml.load s.toList with
  | .error _ => none
  | .ok loaded =>
      if Normalizer.isEmptyTop loaded.top then none
      else
        match loaded.toJson with
        | .error _ => none
        | .ok plain =>
            match n.exchange plain with
            | .ok (.obj fields) => some fields
            | _ => none

theorem documentToXml_default {n : Normalizer} {s : String} (data : dataOf? n s = some fields)
    (none : ∀ xml, ofJson (.obj fields) ≠ .ok (some xml)) : n.documentToXml s = .ok n.defaultXml := by
  unfold dataOf? at data
  unfold Normalizer.documentToXml Normalizer.readDocument
  cases load : Yaml.load s.toList with
  | error e =>
      rw [load] at data
      cases data
  | ok loaded =>
      rw [load] at data
      dsimp only at data ⊢
      by_cases nothing : Normalizer.isEmptyTop loaded.top = true
      · rw [if_pos nothing] at data
        cases data
      rw [if_neg nothing] at data ⊢
      cases json : loaded.toJson with
      | error e =>
          rw [json] at data
          cases data
      | ok plain =>
          rw [json] at data
          dsimp only at data ⊢
          cases exchanged : n.exchange plain with
          | error message =>
              rw [exchanged] at data
              cases data
          | ok j =>
              rw [exchanged] at data
              cases j <;> cases data
              dsimp only
              split
              · rfl
              · rfl
              · exact absurd ‹_› (none _)

theorem names_checked (inert : ∀ key ∈ namesOf fields, InertKey key) :
    ((∃ key ∈ namesOf fields, ¬Named key) → (∀ xml, ofJson (.obj fields) ≠ .ok (some xml)) ∧
      ∀ (n : Normalizer) (s : String), dataOf? n s = some fields → n.documentToXml s = .ok n.defaultXml) ∧
    ∀ xml, ofJson (.obj fields) = .ok (some xml) → ∃ d written again, draftOf fields = .ok d ∧
      toNode d = .ok written ∧ ofMarkup? xml = some again ∧ written.Stems again := by
  constructor
  · rintro ⟨key, member, unnamed⟩
    have none : ∀ xml, ofJson (.obj fields) ≠ .ok (some xml) := by
      intro xml made
      obtain ⟨_, _, _, _, _, _, _, named⟩ := ofJson_stems inert made
      exact unnamed (named key member)
    exact ⟨none, fun n s data => documentToXml_default data none⟩
  · intro xml made
    obtain ⟨d, written, again, drafted, built, read, stems, _⟩ := ofJson_stems inert made
    exact ⟨d, written, again, drafted, built, read, stems⟩

-- A name that begins with a digit, and one that is a name.
theorem names_checked_digit :
    Normalizer.documentToXml ⟨"<Project />", .structured⟩ "1A:" = .ok "<Project />" ∧
    ∃ d written again, draftOf [(Text.ofString "A", .null)] = .ok d ∧ toNode d = .ok written ∧
      ofMarkup? "<Project>\n  <A />\n</Project>".toList = some again ∧ written.Stems again := by
  have digit : InertKey (Text.ofString "1A") := by
    constructor
    · intro c member
      have either : c = '1' ∨ c = 'A' := by simpa [Text.ofString, Text.ofChars] using member
      rcases either with rfl | rfl <;> decide
    · rintro _ ⟨⟩
      decide
  have letter : InertKey (Text.ofString "A") := by
    constructor
    · intro c member
      have same : c = 'A' := by simpa [Text.ofString, Text.ofChars] using member
      rw [same]
      decide
    · rintro _ ⟨⟩
      decide
  have unnamed : ¬Named (Text.ofString "1A") := by
    rintro ⟨w, proper, same⟩
    obtain ⟨c, more, chars, starts⟩ := chars_starts proper
    rw [chars] at same
    have one : '1' = c := CodePoint.char.inj (List.cons.inj same).1
    subst one
    exact absurd starts (by decide)
  have data : (dataOf? ⟨"<Project />", .structured⟩ "1A:").any
      (fun fields => namesOf fields = [Text.ofString "1A"]) = true := by
    decide +kernel
  obtain ⟨fields, found, names⟩ := (Option.any_eq_true _ _).mp data
  have names : namesOf fields = [Text.ofString "1A"] := of_decide_eq_true names
  have made : ofJson (.obj [(Text.ofString "A", .null)])
      = .ok (some "<Project>\n  <A />\n</Project>".toList) := by
    decide +kernel
  constructor
  · refine ((names_checked ?_).1 ⟨_, ?_, unnamed⟩).2 _ _ found
    · rw [names]
      simpa using digit
    · rw [names]
      simp
  · have single : namesOf [(Text.ofString "A", .null)] = [Text.ofString "A"] := by decide +kernel
    refine (names_checked ?_).2 _ made
    rw [single]
    simpa using letter

-- Without the condition a name can bring elements along.
example : ofJson (.obj [(Text.ofString "A /><B", .null)])
    = .ok (some "<Project>\n  <A />\n  <B />\n</Project>".toList) := by
  decide +kernel

end InlineProject.Project
