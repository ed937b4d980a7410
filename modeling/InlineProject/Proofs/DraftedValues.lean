import Mathlib
import InlineProject.Proofs.CheckedNames
import InlineProject.Proofs.DataLeaves
/-!
The texts of a draft. They are those of the values that the fields of the data give its elements, in the order of the
document: of several values of one attribute, and of several texts of an element, the last one.
-/

namespace InlineProject.Project

open Json (itemLeaves fieldLeaves replaced names)

variable {d d' : Draft} {key : Text} {value : Json} {fields done : List (Text × Json)} {text : Text}

/-! ### Places in drafts -/

mutual
-- The texts of a draft, in the order of the document.
def Draft.texts : Draft → List Text
  | .element _ attributes text children => attributes.map Prod.snd ++ text :: allTexts children

def allTexts : List Draft → List Text
  | [] => []
  | d :: rest => d.texts ++ allTexts rest
end

theorem allTexts_append {drafts others : List Draft} : allTexts (drafts ++ others) = allTexts drafts ++ allTexts others := by
  induction drafts with
  | nil => rfl
  | cons d drafts ih => rw [List.cons_append, allTexts, allTexts, ih, List.append_assoc]

-- The texts are those of the values, in their order.
abbrev Written (values : List Json) (texts : List Text) : Prop :=
  List.Forall₂ (fun value text => scalarText value = .ok text) values texts

def isText (key : Text) : Bool := key = textField

def isElement (key : Text) : Bool := !isAttribute key && !isText key

abbrev attributeFields (fields : List (Text × Json)) : List (Text × Json) := fields.filter fun field => isAttribute field.1

abbrev textFields (fields : List (Text × Json)) : List (Text × Json) := fields.filter fun field => isText field.1

abbrev elementFields (fields : List (Text × Json)) : List (Text × Json) := fields.filter fun field => isElement field.1

-- The value of the last field, if there is one.
def lastValue (fields : List (Text × Json)) : Json := (fields.getLast?.map Prod.snd).getD .null

-- The leaves of attributes and texts that another one is written over.
def overwritten (fields : List (Text × Json)) : Multiset Json :=
  replaced (attributeFields fields) + replaced (textFields fields)

-- A field is marked as the attribute that its value is written to.
def Gives (field : Text × Json) (a : Text × Text) : Prop := field.1 = .char '@' :: a.1 ∧ scalarText field.2 = .ok a.2

-- What an element has got from fields.
inductive Drawn (fields : List (Text × Json)) : Draft → Prop
  | element {name : Text} {attributes : List (Text × Text)} {text : Text} {children : List Draft} {values : List Json} :
      List.Forall₂ Gives (Json.distinctFields (attributeFields fields)) attributes →
      scalarText (lastValue (textFields fields)) = .ok text →
      Written values (allTexts children) →
      itemLeaves values = fieldLeaves (elementFields fields) →
      Drawn fields (.element name attributes text children)

theorem drawn_empty (name : Text) : Drawn [] (.empty name) := .element .nil rfl .nil rfl

theorem isAttribute_mark (marked : isAttribute key = true) : key = .char '@' :: key.tail := by
  cases key with
  | nil => cases marked
  | cons p key => rw [Option.some.inj (of_decide_eq_true marked), List.tail_cons]

theorem isText_unmarked (named : isText key = true) : isAttribute key = false := by
  rw [of_decide_eq_true named]
  decide

theorem isAttribute_unnamed (marked : isAttribute key = true) : isText key = false := by
  by_contra named
  rw [isText_unmarked (by simpa using named)] at marked
  cases marked

theorem putAttribute_gives {kept : List (Text × Json)} {given : List (Text × Text)}
    (each : List.Forall₂ Gives kept given) (wrote : scalarText value = .ok text) :
    List.Forall₂ Gives (Json.putField (.char '@' :: key) value kept) (Draft.putAttribute key text given) := by
  induction each with
  | nil => exact .cons ⟨rfl, wrote⟩ .nil
  | @cons field a kept given first others ih =>
    rw [Json.putField, Draft.putAttribute]
    by_cases same : a.1 = key
    · rw [if_pos (by rw [first.1, same]), if_pos same]
      exact .cons ⟨rfl, wrote⟩ others
    · have different : field.1 ≠ .char '@' :: key := fun again => same (List.cons.inj (first.1.symm.trans again)).2
      rw [if_neg different, if_neg same]
      exact .cons first ih

theorem distinctFields_snoc : Json.distinctFields (fields ++ [(key, value)])
    = Json.putField key value (Json.distinctFields fields) := by
  unfold Json.distinctFields
  rw [List.foldl_append]
  rfl

theorem lastValue_snoc : lastValue (fields ++ [(key, value)]) = value := by
  unfold lastValue
  rw [List.getLast?_concat]
  rfl

theorem filter_snoc {p : Text → Bool} (holds : p key = true) :
    (done ++ [(key, value)]).filter (fun field => p field.1) = done.filter (fun field => p field.1) ++ [(key, value)] := by
  rw [List.filter_append, List.filter_cons_of_pos (by exact holds), List.filter_nil]

theorem filter_snoc_other {p : Text → Bool} (fails : p key = false) :
    (done ++ [(key, value)]).filter (fun field => p field.1) = done.filter fun field => p field.1 := by
  rw [List.filter_append, List.filter_cons_of_neg (by simpa using fails), List.filter_nil, List.append_nil]

/-! ### What fields give -/

theorem Drawn.withAttribute (drawn : Drawn done d) (marked : isAttribute key = true) (wrote : scalarText value = .ok text) :
    Drawn (done ++ [(key, value)]) (d.withAttribute key.tail text) := by
  have unnamed := isAttribute_unnamed marked
  have noElement : isElement key = false := by simp [isElement, marked]
  cases drawn with
  | element given inside below leaves =>
    refine .element ?_ ?_ below ?_
    · rw [attributeFields, filter_snoc marked, distinctFields_snoc, isAttribute_mark marked]
      exact putAttribute_gives given wrote
    · rwa [textFields, filter_snoc_other unnamed]
    · rwa [elementFields, filter_snoc_other noElement]

theorem Drawn.withText (drawn : Drawn done d) (named : isText key = true) (wrote : scalarText value = .ok text) :
    Drawn (done ++ [(key, value)]) (d.withText text) := by
  have noElement : isElement key = false := by simp [isElement, named]
  cases drawn with
  | element given inside below leaves =>
    refine .element ?_ ?_ below ?_
    · rwa [attributeFields, filter_snoc_other (isText_unmarked named)]
    · rwa [textFields, filter_snoc named, lastValue_snoc]
    · rwa [elementFields, filter_snoc_other noElement]

def Draft.withChildren (d : Draft) (more : List Draft) : Draft :=
  match d with
  | .element name attributes text children => .element name attributes text (children ++ more)

-- A draft gets children whose texts are those of values with these leaves.
def Adds (d d' : Draft) (leaves : Multiset Json) : Prop :=
  ∃ more values, d' = d.withChildren more ∧ Written values (allTexts more) ∧ itemLeaves values = leaves

theorem Adds.refl : Adds d d 0 := by
  refine ⟨[], [], ?_, .nil, rfl⟩
  cases d
  rw [Draft.withChildren, List.append_nil]

theorem Adds.trans {d'' : Draft} {leaves more : Multiset Json} (first : Adds d d' leaves) (second : Adds d' d'' more) :
    Adds d d'' (leaves + more) := by
  obtain ⟨one, values, rfl, written, rfl⟩ := first
  obtain ⟨two, others, rfl, written', rfl⟩ := second
  refine ⟨one ++ two, values ++ others, ?_, ?_, Json.itemLeaves_append⟩
  · cases d
    simp [Draft.withChildren]
  · rw [allTexts_append]
    exact List.rel_append written written'

theorem adds_child {child : Draft} {values : List Json} (written : Written values child.texts) :
    Adds d (d.withChild child) (itemLeaves values) := by
  refine ⟨[child], values, ?_, ?_, rfl⟩
  · cases d
    rfl
  · rw [allTexts, allTexts, List.append_nil]
    exact written

theorem adds_atom {j : Json} (wrote : scalarText j = .ok text) :
    Adds d (d.withChild ((Draft.empty key).withText text)) j.leaves := by
  have single : itemLeaves [j] = j.leaves := add_zero _
  rw [← single]
  exact adds_child (.cons wrote .nil)

theorem Drawn.withChildren (drawn : Drawn done d) (element : isElement key = true) (adds : Adds d d' value.leaves) :
    Drawn (done ++ [(key, value)]) d' := by
  obtain ⟨unmarked, unnamed⟩ : isAttribute key = false ∧ isText key = false := by simpa [isElement] using element
  obtain ⟨more, others, rfl, written, held⟩ := adds
  cases drawn with
  | @element _ _ _ children values given inside below leaves =>
    have both : Written (values ++ others) (allTexts (children ++ more)) := by
      rw [allTexts_append]
      exact List.rel_append below written
    refine .element ?_ ?_ both ?_
    · rwa [attributeFields, filter_snoc_other unmarked]
    · rwa [textFields, filter_snoc_other unnamed]
    · rw [elementFields, filter_snoc element, Json.itemLeaves_append, Json.fieldLeaves_append, leaves, held]
      exact congrArg _ (add_zero _).symm

/-! ### Leaves of what was drawn -/

theorem fieldLeaves_kinds : fieldLeaves (attributeFields fields) + fieldLeaves (textFields fields)
    + fieldLeaves (elementFields fields) = fieldLeaves fields := by
  have first := @Json.fieldLeaves_filter fields fun field => isAttribute field.1
  have second := @Json.fieldLeaves_filter (fields.filter fun field => !isAttribute field.1) fun field => isText field.1
  have texts : (fields.filter fun field => !isAttribute field.1).filter (fun field => isText field.1) = textFields fields := by
    rw [List.filter_filter]
    refine List.filter_congr fun field _ => ?_
    cases named : isText field.1 with
    | false => rfl
    | true => rw [isText_unmarked named]; rfl
  have elements : (fields.filter fun field => !isAttribute field.1).filter (fun field => !isText field.1)
      = elementFields fields := by
    rw [List.filter_filter]
    exact List.filter_congr fun field _ => Bool.and_comm _ _
  rw [texts, elements] at second
  rw [add_assoc, second, first]

theorem lastValue_leaves {same : Text} (all : ∀ field ∈ fields, field.1 = same) :
    (lastValue fields).leaves + replaced fields = fieldLeaves fields := by
  induction fields with
  | nil => rfl
  | cons field fields ih =>
    obtain ⟨first, others⟩ := List.forall_mem_cons.mp all
    have later := ih others
    rw [replaced, Json.fieldLeaves_cons]
    cases fields with
    | nil => exact congrArg _ (add_zero _).symm
    | cons next fields =>
      have again : field.1 ∈ names (next :: fields) := by
        rw [first, ← others next List.mem_cons_self]
        exact List.mem_cons_self
      have last : lastValue (field :: next :: fields) = lastValue (next :: fields) := by
        unfold lastValue
        rw [List.getLast?_cons_cons]
      rw [if_pos again, last, ← later]
      exact add_left_comm _ _ _

-- The texts of an element are those of values, which have all leaves of the fields but for those written over.
theorem Drawn.values (drawn : Drawn fields d) :
    ∃ values, Written values d.texts ∧ itemLeaves values + overwritten fields = fieldLeaves fields := by
  cases drawn with
  | @element name attributes text children values given inside below leaves =>
    refine ⟨(Json.distinctFields (attributeFields fields)).map Prod.snd ++ lastValue (textFields fields) :: values, ?_, ?_⟩
    · refine List.rel_append ?_ (.cons inside below)
      rw [List.forall₂_map_left_iff, List.forall₂_map_right_iff]
      exact given.imp fun _ _ => And.right
    · have same : ∀ field ∈ textFields fields, field.1 = textField := fun field member =>
        of_decide_eq_true (List.mem_filter.mp member).2
      rw [Json.itemLeaves_append, Json.itemLeaves_values, itemLeaves, overwritten, leaves, ← @fieldLeaves_kinds fields,
        ← lastValue_leaves same, ← @Json.distinctFields_leaves (attributeFields fields)]
      abel

theorem overwritten_none (distinct : (names fields).Nodup) : overwritten fields = 0 := by
  have part (p : Text × Json → Bool) : replaced (fields.filter p) = 0 :=
    Json.replaced_none (distinct.sublist (List.filter_sublist.map _))
  rw [overwritten, part, part, add_zero]

/-! ### What data give -/

mutual
theorem fillFields_drawn {d d' : Draft} {done : List (Text × Json)} (drawn : Drawn done d) :
    (fields : List (Text × Json)) → Json.FieldsDistinct fields → fillFields d fields = .ok d' →
    Drawn (done ++ fields) d'
  | [], _, filled => by
    cases filled
    rwa [List.append_nil]
  | (key, value) :: rest, distinct, filled => by
    rw [fillFields] at filled
    rw [List.append_cons]
    dsimp only at filled
    split at filled
    · rename_i marked
      obtain ⟨next, first, others⟩ := bind_parts filled
      obtain ⟨_, wrote, rfl⟩ := map_parts first
      exact fillFields_drawn (drawn.withAttribute marked wrote) rest distinct.2 others
    · rename_i unmarked
      split at filled
      · rename_i named
        obtain ⟨next, first, others⟩ := bind_parts filled
        obtain ⟨_, wrote, rfl⟩ := map_parts first
        exact fillFields_drawn (drawn.withText (decide_eq_true named) wrote) rest distinct.2 others
      · rename_i unnamed
        obtain ⟨next, first, others⟩ := bind_parts filled
        have element : isElement key = true := by simp [isElement, isText, unmarked, unnamed]
        have adds := addChildren_adds key value distinct.1 first
        exact fillFields_drawn (drawn.withChildren element adds) rest distinct.2 others

theorem addChildren_adds {d d' : Draft} (key : Text) : (j : Json) → j.Distinct → addChildren d key j = .ok d' →
    Adds d d' j.leaves
  | .arr items, distinct, added => by
    rw [addChildren] at added
    exact addItems_adds key items distinct added
  | .obj fields, distinct, added => by
    rw [addChildren] at added
    obtain ⟨child, filled, rfl⟩ := map_parts added
    obtain ⟨values, written, held⟩ := (fillFields_drawn (drawn_empty key) fields distinct.2 filled).values
    rw [List.nil_append, overwritten_none distinct.1, add_zero] at held
    rw [Json.leaves, ← held]
    exact adds_child written
  | .null, _, added => by
    cases added
    exact adds_atom rfl
  | .bool _, _, added | .int _, _, added | .real _, _, added | .str _, _, added => by
    rw [addChildren] at added
    · obtain ⟨text, wrote, rfl⟩ := map_parts added
      exact adds_atom wrote
    all_goals simp

theorem addItems_adds {d d' : Draft} (key : Text) : (items : List Json) → Json.ItemsDistinct items →
    addItems d key items = .ok d' → Adds d d' (itemLeaves items)
  | [], _, added => by
    cases added
    exact .refl
  | item :: rest, distinct, added => by
    rw [addItems] at added
    obtain ⟨next, first, others⟩ := bind_parts added
    exact (addChildren_adds key item distinct.1 first).trans (addItems_adds key rest distinct.2 others)
end

-- The fields that say what a value gives its element: a text is the field of its own.
mutual
def ownFields : Json → List (Text × Json)
  | .obj fields => fields
  | .arr items => itemsFields items
  | .null => []
  | j => [(textField, j)]

def itemsFields : List Json → List (Text × Json)
  | [] => []
  | item :: rest => ownFields item ++ itemsFields rest
end

theorem fillFields_append {others : List (Text × Json)} {d : Draft} :
    fillFields d (fields ++ others) = (fillFields d fields).bind fun d => fillFields d others := by
  induction fields generalizing d with
  | nil => rfl
  | cons field fields ih =>
    rw [List.cons_append, fillFields, fillFields]
    dsimp only
    split
    · cases scalarText field.2 with
      | error => rfl
      | ok => exact ih
    · split
      · cases scalarText field.2 with
        | error => rfl
        | ok => exact ih
      · cases addChildren d field.1 field.2 with
        | error => rfl
        | ok => exact ih

theorem fillFields_text {d : Draft} {j : Json} :
    fillFields d [(textField, j)] = (scalarText j).map d.withText := by
  rw [fillFields]
  dsimp only
  rw [if_neg (by decide), if_pos rfl]
  cases scalarText j <;> rfl

mutual
theorem fill_fields {d : Draft} : (j : Json) → fill d j = fillFields d (ownFields j)
  | .obj fields => by rw [fill, ownFields]
  | .arr items => by rw [fill, ownFields, fillItems_fields items]
  | .null => rfl
  | .bool _ | .int _ | .real _ | .str _ => by
    rw [fill, ownFields, fillFields_text]
    all_goals simp

theorem fillItems_fields {d : Draft} : (items : List Json) → fillItems d items = fillFields d (itemsFields items)
  | [] => rfl
  | item :: rest => by
    rw [fillItems, itemsFields, fillFields_append, fill_fields item]
    cases fillFields d (ownFields item) with
    | error => rfl
    | ok => exact fillItems_fields rest
end

mutual
theorem ownFields_leaves : (j : Json) → fieldLeaves (ownFields j) = j.leaves
  | .obj _ => rfl
  | .arr items => itemsFields_leaves items
  | .null => rfl
  | .bool _ | .int _ | .real _ | .str _ => add_zero _

theorem itemsFields_leaves : (items : List Json) → fieldLeaves (itemsFields items) = itemLeaves items
  | [] => rfl
  | item :: rest => by
    rw [itemsFields, itemLeaves, Json.fieldLeaves_append, ownFields_leaves item, itemsFields_leaves rest]
end

mutual
theorem ownFields_distinct : (j : Json) → j.Distinct → ∀ field ∈ ownFields j, field.2.Distinct
  | .obj _, distinct => Json.fieldsDistinct_exact.mp distinct.2
  | .arr items, distinct => itemsFields_distinct items distinct
  | .null, _ => List.forall_mem_nil _
  | .bool _, _ | .int _, _ | .real _, _ | .str _, _ => List.forall_mem_singleton.mpr trivial

theorem itemsFields_distinct : (items : List Json) → Json.ItemsDistinct items →
    ∀ field ∈ itemsFields items, field.2.Distinct
  | [], _ => List.forall_mem_nil _
  | item :: rest, distinct =>
    List.forall_mem_append.mpr ⟨ownFields_distinct item distinct.1, itemsFields_distinct rest distinct.2⟩
end

-- The fields of the root: a single field with its name is the root itself.
def rootFields (fields : List (Text × Json)) : List (Text × Json) :=
  match fields with
  | [(key, value)] => if key = Text.ofString rootLabel then ownFields value else fields
  | fields => fields

theorem draftOf_fields : draftOf fields = fillFields (.empty (Text.ofString rootLabel)) (rootFields fields) := by
  rcases fields with _ | ⟨⟨key, value⟩, _ | ⟨second, rest⟩⟩
  · rfl
  · unfold draftOf rootFields
    dsimp only
    split
    · exact fill_fields value
    · rfl
  · rfl

theorem rootFields_leaves : fieldLeaves (rootFields fields) = fieldLeaves fields := by
  unfold rootFields
  split
  · split
    · rw [ownFields_leaves, Json.fieldLeaves_cons]
      exact (add_zero _).symm
    · rfl
  · rfl

theorem rootFields_distinct (distinct : Json.FieldsDistinct fields) : Json.FieldsDistinct (rootFields fields) := by
  unfold rootFields
  split
  · split
    · exact Json.fieldsDistinct_exact.mpr (ownFields_distinct _ distinct.1)
    · exact distinct
  · exact distinct

theorem draftOf_values (distinct : Json.FieldsDistinct fields) (drafted : draftOf fields = .ok d) :
    ∃ values, Written values d.texts ∧ itemLeaves values + overwritten (rootFields fields) = fieldLeaves fields := by
  rw [draftOf_fields] at drafted
  rw [← rootFields_leaves]
  exact (fillFields_drawn (drawn_empty _) _ (rootFields_distinct distinct) drafted).values

/-! ### Attributes -/

mutual
-- The names of the attributes that a value brings along.
def attributesIn : Json → List Text
  | .obj fields => attributesInFields fields
  | .arr items => attributesInItems items
  | _ => []

def attributesInItems : List Json → List Text
  | [] => []
  | item :: rest => attributesIn item ++ attributesInItems rest

def attributesInFields : List (Text × Json) → List Text
  | [] => []
  | (key, value) :: rest =>
      (if isAttribute key then [key.tail] else if key = textField then [] else attributesIn value)
        ++ attributesInFields rest
end

mutual
def Draft.given : Draft → List Text
  | .element _ attributes _ children => attributes.map Prod.fst ++ allGiven children

def allGiven : List Draft → List Text
  | [] => []
  | d :: rest => d.given ++ allGiven rest
end

theorem withText_given : (d.withText text).given = d.given := by
  cases d
  rfl

theorem allGiven_append {drafts others : List Draft} : allGiven (drafts ++ others) = allGiven drafts ++ allGiven others := by
  induction drafts with
  | nil => rfl
  | cons d drafts ih => rw [List.cons_append, allGiven, allGiven, ih, List.append_assoc]

theorem mem_withChild_given {child : Draft} : key ∈ (d.withChild child).given ↔ key ∈ d.given ∨ key ∈ child.given := by
  cases d
  simp [Draft.withChild, Draft.given, allGiven_append, allGiven, or_assoc]

theorem mem_withAttribute_given {name : Text} : key ∈ (d.withAttribute name text).given ↔ key ∈ d.given ∨ key = name := by
  cases d
  simp only [Draft.withAttribute, Draft.given, List.mem_append, mem_putAttribute]
  tauto

mutual
theorem mem_fillFields_given {d d' : Draft} : (fields : List (Text × Json)) → fillFields d fields = .ok d' →
    key ∈ d'.given → key ∈ d.given ∨ key ∈ attributesInFields fields
  | [], filled, member => by
    cases filled
    exact .inl member
  | (name, value) :: rest, filled, member => by
    rw [fillFields] at filled
    rw [attributesInFields, List.mem_append, ← or_assoc]
    dsimp only at filled
    split at filled
    · obtain ⟨next, first, others⟩ := bind_parts filled
      obtain ⟨_, _, rfl⟩ := map_parts first
      rw [if_pos ‹_›, List.mem_singleton, ← mem_withAttribute_given]
      exact mem_fillFields_given rest others member
    · split at filled
      · obtain ⟨next, first, others⟩ := bind_parts filled
        obtain ⟨_, _, rfl⟩ := map_parts first
        refine (mem_fillFields_given rest others member).imp_left fun before => .inl ?_
        rwa [withText_given] at before
      · obtain ⟨next, first, others⟩ := bind_parts filled
        rw [if_neg ‹_›, if_neg ‹_›]
        exact (mem_fillFields_given rest others member).imp_left (mem_addChildren_given name value first)

theorem mem_addChildren_given {d d' : Draft} (name : Text) : (j : Json) → addChildren d name j = .ok d' →
    key ∈ d'.given → key ∈ d.given ∨ key ∈ attributesIn j
  | .arr items, added, member => mem_addItems_given name items (by rwa [addChildren] at added) member
  | .obj fields, added, member => by
    rw [addChildren] at added
    obtain ⟨child, filled, rfl⟩ := map_parts added
    refine (mem_withChild_given.mp member).imp_right fun inside => ?_
    exact (mem_fillFields_given fields filled inside).resolve_left List.not_mem_nil
  | .null, added, member => by
    cases added
    exact .inl ((mem_withChild_given.mp member).resolve_right List.not_mem_nil)
  | .bool _, added, member | .int _, added, member | .real _, added, member | .str _, added, member => by
    rw [addChildren] at added
    · obtain ⟨_, _, rfl⟩ := map_parts added
      exact .inl ((mem_withChild_given.mp member).resolve_right List.not_mem_nil)
    all_goals simp

theorem mem_addItems_given {d d' : Draft} (name : Text) : (items : List Json) → addItems d name items = .ok d' →
    key ∈ d'.given → key ∈ d.given ∨ key ∈ attributesInItems items
  | [], added, member => by
    cases added
    exact .inl member
  | item :: rest, added, member => by
    rw [addItems] at added
    obtain ⟨next, first, others⟩ := bind_parts added
    rw [attributesInItems, List.mem_append, ← or_assoc]
    exact (mem_addItems_given name rest others member).imp_left (mem_addChildren_given name item first)
end

-- The names of the attributes of the project that data make.
def attributesOf (fields : List (Text × Json)) : List Text := attributesInFields (rootFields fields)

theorem mem_draftOf_given (drafted : draftOf fields = .ok d) (member : key ∈ d.given) : key ∈ attributesOf fields := by
  rw [draftOf_fields] at drafted
  exact (mem_fillFields_given _ drafted member).resolve_left List.not_mem_nil

end InlineProject.Project
