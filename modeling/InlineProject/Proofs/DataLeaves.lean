import Mathlib
import InlineProject.Descriptor.Attribute
import InlineProject.Proofs.JsonRecords
import InlineProject.Proofs.UnfoldedGraph
/-!
The leaves of data. What has other names keeps all of them but for those of the fields whose new name comes again
in the same record.
-/

namespace InlineProject

namespace Json

variable {fields : List (Text × Json)} {f : Text → Text}

/-! ### Leaves -/

mutual
-- The scalars of a value that say something, each as often as it stands there.
def leaves : Json → Multiset Json
  | .null => 0
  | .arr items => itemLeaves items
  | .obj fields => fieldLeaves fields
  | j => {j}

def itemLeaves : List Json → Multiset Json
  | [] => 0
  | item :: rest => item.leaves + itemLeaves rest

def fieldLeaves : List (Text × Json) → Multiset Json
  | [] => 0
  | (_, value) :: rest => value.leaves + fieldLeaves rest
end

theorem itemLeaves_append {items others : List Json} :
    itemLeaves (items ++ others) = itemLeaves items + itemLeaves others := by
  induction items with
  | nil => exact (zero_add _).symm
  | cons item items ih => rw [List.cons_append, itemLeaves, itemLeaves, ih, add_assoc]

theorem fieldLeaves_cons {field : Text × Json} : fieldLeaves (field :: fields) = field.2.leaves + fieldLeaves fields :=
  rfl

theorem fieldLeaves_append {others : List (Text × Json)} :
    fieldLeaves (fields ++ others) = fieldLeaves fields + fieldLeaves others := by
  induction fields with
  | nil => exact (zero_add _).symm
  | cons field fields ih => rw [List.cons_append, fieldLeaves_cons, fieldLeaves_cons, ih, add_assoc]

theorem itemLeaves_values : itemLeaves (fields.map Prod.snd) = fieldLeaves fields := by
  induction fields with
  | nil => rfl
  | cons field fields ih => rw [List.map_cons, itemLeaves, ih, fieldLeaves_cons]

theorem fieldLeaves_perm {others : List (Text × Json)} (same : fields.Perm others) :
    fieldLeaves fields = fieldLeaves others := by
  induction same with
  | nil => rfl
  | cons field _ ih => rw [fieldLeaves_cons, fieldLeaves_cons, ih]
  | swap field other fields =>
    simp only [fieldLeaves_cons]
    exact add_left_comm _ _ _
  | trans _ _ one two => exact one.trans two

theorem fieldLeaves_filter (p : Text × Json → Bool) :
    fieldLeaves (fields.filter p) + fieldLeaves (fields.filter fun field => !p field) = fieldLeaves fields := by
  rw [← fieldLeaves_append]
  exact fieldLeaves_perm (List.filter_append_perm p fields)

/-! ### Fields whose names come again -/

-- The leaves of the fields whose names come again.
def replaced : List (Text × Json) → Multiset Json
  | [] => 0
  | (name, value) :: rest => (if name ∈ names rest then value.leaves else 0) + replaced rest

-- The other fields.
def lasts : List (Text × Json) → List (Text × Json)
  | [] => []
  | field :: rest => if field.1 ∈ names rest then lasts rest else field :: lasts rest

theorem names_cons {field : Text × Json} : names (field :: fields) = field.1 :: names fields := rfl

theorem lasts_replaced : fieldLeaves (lasts fields) + replaced fields = fieldLeaves fields := by
  induction fields with
  | nil => rfl
  | cons field fields ih =>
    rw [lasts, replaced, fieldLeaves_cons, ← ih]
    split
    · exact add_left_comm _ _ _
    · rw [fieldLeaves_cons, zero_add, add_assoc]

theorem replaced_none (distinct : (names fields).Nodup) : replaced fields = 0 := by
  induction fields with
  | nil => rfl
  | cons field fields ih =>
    obtain ⟨first, others⟩ := List.nodup_cons.mp (names_cons ▸ distinct)
    rw [replaced, if_neg first, zero_add]
    exact ih others

theorem putField_perm {name : Text} {value : Json} (distinct : (names fields).Nodup) :
    (putField name value fields).Perm ((name, value) :: fields.filter fun field => field.1 ≠ name) := by
  induction fields with
  | nil => exact .refl _
  | cons field fields ih =>
    obtain ⟨first, others⟩ := List.nodup_cons.mp (names_cons ▸ distinct)
    rw [putField]
    split
    · rename_i same
      have rest : (fields.filter fun other => other.1 ≠ name) = fields := by
        refine List.filter_eq_self.mpr fun other member => decide_eq_true fun again => ?_
        exact first (List.mem_map.mpr ⟨other, member, again.trans same.symm⟩)
      rw [List.filter_cons_of_neg (by simpa using same), rest]
    · rename_i different
      rw [List.filter_cons_of_pos (by simpa using different)]
      exact ((ih others).cons _).trans (.swap _ _ _)

-- Of what was kept so far those fields stay whose names do not come again.
theorem foldl_lasts {kept : List (Text × Json)} (distinct : (names kept).Nodup) :
    (fields.foldl (fun kept field => putField field.1 field.2 kept) kept).Perm
      (kept.filter (fun field => field.1 ∉ names fields) ++ lasts fields) := by
  induction fields generalizing kept with
  | nil =>
    have all : (kept.filter fun field => field.1 ∉ names ([] : List (Text × Json))) = kept :=
      List.filter_eq_self.mpr fun field _ => by simp [names]
    rw [all, lasts, List.append_nil]
    exact .refl _
  | cons field fields ih =>
    have still : (names (putField field.1 field.2 kept)).Nodup := by
      rw [putField_eq]
      exact setEntry_nodup distinct
    have others : (kept.filter fun other => other.1 ∉ names (field :: fields))
        = (kept.filter fun other => other.1 ≠ field.1).filter fun other => other.1 ∉ names fields := by
      rw [List.filter_filter]
      refine List.filter_congr fun other _ => ?_
      simp [names_cons, Bool.and_comm]
    have put := (@putField_perm kept field.1 field.2 distinct).filter fun other => other.1 ∉ names fields
    rw [List.foldl_cons, others, lasts]
    refine (ih still).trans ((put.append_right _).trans ?_)
    split
    · rename_i again
      rw [List.filter_cons_of_neg (by simpa using again)]
    · rename_i last
      rw [List.filter_cons_of_pos (by simpa using last)]
      exact List.perm_middle.symm

theorem distinctFields_leaves : fieldLeaves (distinctFields fields) + replaced fields = fieldLeaves fields := by
  have perm := @foldl_lasts fields [] .nil
  rw [← @lasts_replaced fields]
  exact congrArg (· + replaced fields) (fieldLeaves_perm perm)

/-! ### Other names -/

mutual
-- The value with other names; of equal ones the first gives the place and the last the value.
def renamed (f : Text → Text) : Json → Json
  | .arr items => .arr (itemsRenamed f items)
  | .obj fields => .obj (distinctFields (fieldsRenamed f fields))
  | j => j

def itemsRenamed (f : Text → Text) : List Json → List Json
  | [] => []
  | item :: rest => item.renamed f :: itemsRenamed f rest

def fieldsRenamed (f : Text → Text) : List (Text × Json) → List (Text × Json)
  | [] => []
  | (name, value) :: rest => (f name, value.renamed f) :: fieldsRenamed f rest
end

mutual
-- The leaves in fields whose new names come again in the same record.
def shadowed (f : Text → Text) : Json → Multiset Json
  | .arr items => itemsShadowed f items
  | .obj fields => fieldsShadowed f fields
  | _ => 0

def itemsShadowed (f : Text → Text) : List Json → Multiset Json
  | [] => 0
  | item :: rest => item.shadowed f + itemsShadowed f rest

def fieldsShadowed (f : Text → Text) : List (Text × Json) → Multiset Json
  | [] => 0
  | (name, value) :: rest =>
      (if f name ∈ (names rest).map f then value.leaves else value.shadowed f) + fieldsShadowed f rest
end

theorem names_renamed : names (fieldsRenamed f fields) = (names fields).map f := by
  induction fields with
  | nil => rfl
  | cons field fields ih => rw [fieldsRenamed, names_cons, names_cons, ih, List.map_cons]

mutual
theorem renamed_leaves : (j : Json) → (j.renamed f).leaves + j.shadowed f = j.leaves
  | .arr items => itemsRenamed_leaves items
  | .obj fields => by
    have all := fieldsRenamed_leaves fields
    rw [← distinctFields_leaves, add_right_comm] at all
    exact add_right_cancel all
  | .null => zero_add _
  | .bool _ | .int _ | .real _ | .str _ => add_zero _

theorem itemsRenamed_leaves : (items : List Json) →
    itemLeaves (itemsRenamed f items) + itemsShadowed f items = itemLeaves items
  | [] => zero_add _
  | item :: rest => by
    rw [itemsRenamed, itemsShadowed, itemLeaves, itemLeaves, ← renamed_leaves item, ← itemsRenamed_leaves rest]
    exact add_add_add_comm _ _ _ _

theorem fieldsRenamed_leaves : (fields : List (Text × Json)) →
    fieldLeaves (fieldsRenamed f fields) + fieldsShadowed f fields
      = fieldLeaves fields + replaced (fieldsRenamed f fields)
  | [] => rfl
  | (name, value) :: rest => by
    have own := renamed_leaves value
    have others := fieldsRenamed_leaves rest
    rw [fieldsRenamed, fieldsShadowed, replaced, fieldLeaves_cons, fieldLeaves_cons, names_renamed]
    split
    · rw [add_add_add_comm, others, add_comm (value.renamed f).leaves]
      exact add_add_add_comm _ _ _ _
    · rw [zero_add, add_add_add_comm, own, others, add_assoc]
end

-- No name comes twice in a record, however deep.
mutual
def Distinct : Json → Prop
  | .arr items => ItemsDistinct items
  | .obj fields => (names fields).Nodup ∧ FieldsDistinct fields
  | _ => True

def ItemsDistinct : List Json → Prop
  | [] => True
  | item :: rest => item.Distinct ∧ ItemsDistinct rest

def FieldsDistinct : List (Text × Json) → Prop
  | [] => True
  | (_, value) :: rest => value.Distinct ∧ FieldsDistinct rest
end

theorem itemsDistinct_exact {items : List Json} : ItemsDistinct items ↔ ∀ item ∈ items, item.Distinct := by
  induction items with
  | nil => simp [ItemsDistinct]
  | cons item items ih => simp [ItemsDistinct, ih]

theorem fieldsDistinct_exact : FieldsDistinct fields ↔ ∀ field ∈ fields, field.2.Distinct := by
  induction fields with
  | nil => simp [FieldsDistinct]
  | cons field fields ih => simp [FieldsDistinct, ih]

mutual
theorem renamed_distinct : (j : Json) → (j.renamed f).Distinct
  | .arr items => itemsRenamed_distinct items
  | .obj fields => by
    refine ⟨distinctFields_nodup, fieldsDistinct_exact.mpr fun field member => ?_⟩
    exact fieldsDistinct_exact.mp (fieldsRenamed_distinct fields) field (distinctFields_mem field member)
  | .null | .bool _ | .int _ | .real _ | .str _ => trivial

theorem itemsRenamed_distinct : (items : List Json) → ItemsDistinct (itemsRenamed f items)
  | [] => trivial
  | item :: rest => ⟨renamed_distinct item, itemsRenamed_distinct rest⟩

theorem fieldsRenamed_distinct : (fields : List (Text × Json)) → FieldsDistinct (fieldsRenamed f fields)
  | [] => trivial
  | (_, value) :: rest => ⟨renamed_distinct value, fieldsRenamed_distinct rest⟩
end

theorem itemsRenamed_map {items : List Json} : itemsRenamed f items = items.map (renamed f) := by
  induction items with
  | nil => rfl
  | cons item items ih => rw [itemsRenamed, ih, List.map_cons]

theorem fieldsRenamed_map : fieldsRenamed f fields = fields.map fun field => (f field.1, field.2.renamed f) := by
  induction fields with
  | nil => rfl
  | cons field fields ih => rw [fieldsRenamed, ih, List.map_cons]

end Json

namespace Attribute

mutual
theorem exchange_renamed : (j : Json) → exchange j = j.renamed exchangeName
  | .arr items => by rw [exchange, Json.renamed, exchangeItems_renamed items]
  | .obj fields => by rw [exchange, Json.renamed, exchangeFields_renamed fields]
  | .null | .bool _ | .int _ | .real _ | .str _ => rfl

theorem exchangeItems_renamed : (items : List Json) → exchangeItems items = Json.itemsRenamed exchangeName items
  | [] => rfl
  | item :: rest => by rw [exchangeItems, Json.itemsRenamed, exchange_renamed item, exchangeItems_renamed rest]

theorem exchangeFields_renamed : (fields : List (Text × Json)) →
    exchangeFields fields = Json.fieldsRenamed exchangeName fields
  | [] => rfl
  | (name, value) :: rest => by
    rw [exchangeFields, Json.fieldsRenamed, exchange_renamed value, exchangeFields_renamed rest]
end

end Attribute

/-! ### Whole documents -/

namespace Yaml.Loaded

variable {l : Loaded} {a : Nat}

-- The tree that a value is written out as before names are compared: an entry for each one of the mapping.
inductive Spreads (l : Loaded) : Nat → Json → Prop
  | missing {id : Nat} : l.value? id = none → Spreads l id .null
  | datum {id : Nat} {d : Datum} {j : Json} : l.value? id = some (.datum d) → d.toJson = .ok j → Spreads l id j
  | set {id : Nat} {members : List Datum} {shown : List Char} : l.value? id = some (.set members) →
      displaySet members = .ok shown → Spreads l id (.str (Text.ofChars shown))
  | pairs {id : Nat} {pairs : List (Nat × Nat)} {shown : List (List Char)} : l.value? id = some (.pairs pairs) →
      List.Forall₂ (fun p cs => l.displayPair id p.2 p.1.1 p.1.2 = .ok cs) pairs.zipIdx shown →
      Spreads l id (.arr (shown.map fun cs => .str (Text.ofChars cs)))
  | list {id : Nat} {items : List Nat} {js : List Json} : l.value? id = some (.list items) →
      items.length = js.length → (∀ p ∈ items.zip js, Spreads l p.1 p.2) → Spreads l id (.arr js)
  | dict {id : Nat} {entries : List (Datum × Nat)} {fields : List (Text × Json)} : l.value? id = some (.dict entries) →
      entries.length = fields.length → (∀ p ∈ entries.zip fields, p.1.1.fieldName = .ok p.2.1) →
      (∀ p ∈ entries.zip fields, Spreads l p.1.2 p.2.2) → Spreads l id (.obj fields)

def Spread (l : Loaded) (j : Json) : Prop :=
  match l.root with
  | none => j = .null
  | some root => l.Spreads root j

theorem forall₂_exists {α β γ : Type} {related : α → β → Prop} {f : β → γ} {as : List α} {cs : List γ}
    (each : List.Forall₂ (fun a c => ∃ b, related a b ∧ f b = c) as cs) :
    ∃ bs, List.Forall₂ related as bs ∧ bs.map f = cs := by
  induction each with
  | nil => exact ⟨[], .nil, rfl⟩
  | cons first _ ih =>
    obtain ⟨b, held, rfl⟩ := first
    obtain ⟨bs, others, rfl⟩ := ih
    exact ⟨b :: bs, .cons held others, rfl⟩

theorem exists_spreads {j : Json} (unfolds : l.Unfolds a j) : ∃ whole, l.Spreads a whole ∧ whole.renamed id = j := by
  induction unfolds with
  | missing found => exact ⟨.null, .missing found, rfl⟩
  | @datum _ d j found made =>
    refine ⟨j, .datum found made, ?_⟩
    cases d <;> cases made <;> rfl
  | set found shown => exact ⟨_, .set found shown, rfl⟩
  | @pairs _ _ shown found each =>
    refine ⟨_, .pairs found each, ?_⟩
    rw [Json.renamed, Json.itemsRenamed_map, List.map_map]
    rfl
  | list found length _ ih =>
    obtain ⟨wholes, each, rfl⟩ := forall₂_exists (List.forall₂_iff_zip.mpr ⟨length, @fun a j => ih (a, j)⟩)
    obtain ⟨length, each⟩ := List.forall₂_iff_zip.mp each
    refine ⟨_, .list found length fun p member => each member, ?_⟩
    rw [Json.renamed, Json.itemsRenamed_map]
  | @dict _ entries fields found length named _ ih =>
    have field : List.Forall₂ (fun entry field => ∃ whole : Text × Json,
        (entry.1.fieldName = .ok whole.1 ∧ l.Spreads entry.2 whole.2) ∧ (whole.1, whole.2.renamed id) = field)
        entries fields := by
      refine List.forall₂_iff_zip.mpr ⟨length, @fun entry field member => ?_⟩
      obtain ⟨whole, spreads, same⟩ := ih (entry, field) member
      exact ⟨(field.1, whole), ⟨named (entry, field) member, spreads⟩, Prod.ext rfl same⟩
    obtain ⟨wholes, each, rfl⟩ := forall₂_exists field
    obtain ⟨length, each⟩ := List.forall₂_iff_zip.mp each
    refine ⟨_, .dict found length (fun p member => (each member).1) (fun p member => (each member).2), ?_⟩
    rw [Json.renamed, Json.fieldsRenamed_map]
    rfl

-- The plain form of a document comes from the whole of it.
theorem toJson_spread {j : Json} (done : l.toJson = .ok j) : ∃ whole, l.Spread whole ∧ whole.renamed id = j := by
  have unfolded := (l.toJson_exact.1 j).mp done
  unfold Unfolded at unfolded
  unfold Spread
  cases root : l.root with
  | none =>
    rw [root] at unfolded
    exact ⟨.null, rfl, unfolded.symm⟩
  | some id =>
    rw [root] at unfolded
    exact exists_spreads unfolded

end Yaml.Loaded
end InlineProject
