import Mathlib
import InlineProject.Proofs.PrintedData
import InlineProject.Yaml.Plain
/-!
Sharing and cycles. The plain form of a document is its value graph written out as a tree. There is one unless a
collection is reached that leads to itself again, or a text of a number that is too long to be written.
-/

namespace InlineProject.Yaml

open Project (map_parts mapError_parts bind_parts bind_fails mapM_parts forall₂_mem mapM_fails)

/-! ### Texts of data -/

namespace Datum

-- A datum holds a number that is too long to be written.
def Long : Datum → Prop
  | .int i => ¬Integer.Short i
  | _ => False

theorem display_fails {d : Datum} {e : NumberError} :
    d.display = .error e ↔ d.Long ∧ e = .textTooLong := by
  cases d with
  | int i =>
    rw [display, Long]
    by_cases short : Integer.Short i
    · rw [Integer.write_exact.mpr ⟨short, rfl⟩]
      simp [Except.map, short]
    · rw [Integer.write_long short]
      simp [Except.map, short, eq_comm]
  | _ => simp [display, Long]

theorem fieldName_fails {d : Datum} {e : NumberError} :
    d.fieldName = .error e ↔ d.Long ∧ e = .textTooLong := by
  cases d with
  | int i =>
    rw [fieldName, asText, ← display_fails]
    cases display (.int i) <;> simp [Except.map]
    all_goals simp
  | _ => simp [fieldName, asText, display, Long, Except.map]

theorem toJson_done (d : Datum) : ∃ j, d.toJson = .ok j := by
  cases d <;> exact ⟨_, rfl⟩

end Datum

namespace Loaded

variable {l : Loaded} {id fuel : Nat} {items : List Nat} {members : List Datum} {e : NumberError} {cs : List Char}

theorem mem_setOrder {d : Datum} : d ∈ setOrder members ↔ d ∈ members := by
  unfold setOrder
  split
  · exact List.mem_mergeSort
  · exact Iff.rfl

theorem displaySet_fails (failed : displaySet members = .error e) :
    e = .textTooLong ∧ ∃ d ∈ members, d.Long := by
  unfold displaySet at failed
  split at failed
  · cases failed
  · obtain failed | ⟨_, _, impossible⟩ := bind_fails failed
    · obtain ⟨d, member, failed⟩ := mapM_fails failed
      obtain ⟨long, rfl⟩ := Datum.display_fails.mp failed
      exact ⟨rfl, d, mem_setOrder.mp member, long⟩
    · cases impossible

theorem displaySet_short (shown : displaySet members = .ok cs) : ∀ d ∈ members, ¬d.Long := by
  intro d member long
  unfold displaySet at shown
  split at shown
  · rename_i empty
    rw [List.isEmpty_iff.mp empty] at member
    cases member
  · obtain ⟨_, mapped, _⟩ := bind_parts shown
    obtain ⟨_, _, done⟩ := (forall₂_mem (mapM_parts.mp mapped)).1 d (mem_setOrder.mpr member)
    cases done.symm.trans (Datum.display_fails.mpr ⟨long, rfl⟩)

/-! ### What is shown -/

-- What stands directly inside of a collection or of one pair.
inductive Shows (l : Loaded) : Mark → Mark → Prop
  | item {a b : Nat} {items : List Nat} : l.value? a = some (.list items) → b ∈ items →
      Shows l (.collection a) (.collection b)
  | value {a b : Nat} {key : Datum} {entries : List (Datum × Nat)} : l.value? a = some (.dict entries) →
      (key, b) ∈ entries → Shows l (.collection a) (.collection b)
  | pair {a index : Nat} {items : List (Nat × Nat)} : l.value? a = some (.pairs items) → index < items.length →
      Shows l (.collection a) (.pair a index)
  | first {a b c index : Nat} {items : List (Nat × Nat)} : l.value? a = some (.pairs items) →
      items[index]? = some (b, c) → Shows l (.pair a index) (.collection b)
  | second {a b c index : Nat} {items : List (Nat × Nat)} : l.value? a = some (.pairs items) →
      items[index]? = some (b, c) → Shows l (.pair a index) (.collection c)

-- A value shows a number itself that is too long.
inductive ShowsLong (l : Loaded) : Mark → Prop
  | datum {a : Nat} {d : Datum} : l.value? a = some (.datum d) → d.Long → ShowsLong l (.collection a)
  | member {a : Nat} {d : Datum} {members : List Datum} : l.value? a = some (.set members) → d ∈ members → d.Long →
      ShowsLong l (.collection a)
  | key {a b : Nat} {d : Datum} {entries : List (Datum × Nat)} : l.value? a = some (.dict entries) →
      (d, b) ∈ entries → d.Long → ShowsLong l (.collection a)

-- Somewhere inside there is a number that is too long.
def HasLong (l : Loaded) (m : Mark) : Prop := ∃ n, Relation.ReflTransGen l.Shows m n ∧ l.ShowsLong n

theorem HasLong.outward {m n : Mark} (shown : l.Shows m n) : l.HasLong n → l.HasLong m := fun ⟨k, way, long⟩ =>
  ⟨k, .head shown way, long⟩

theorem display_fails {around : List Mark} (failed : l.display fuel around id = .error e) :
    e = .textTooLong ∧ l.HasLong (.collection id) := by
  induction fuel generalizing around id e with
  | zero => cases failed
  | succ fuel ih =>
    rw [display] at failed
    split at failed
    · cases failed
    · rename_i d found
      obtain ⟨long, rfl⟩ := Datum.display_fails.mp failed
      exact ⟨rfl, _, .refl, .datum found long⟩
    · rename_i members found
      obtain ⟨rfl, d, member, long⟩ := displaySet_fails failed
      exact ⟨rfl, _, .refl, .member found member long⟩
    · rename_i items found
      split at failed
      · cases failed
      obtain failed | ⟨_, _, impossible⟩ := bind_fails failed
      · obtain ⟨b, member, failed⟩ := mapM_fails failed
        obtain ⟨rfl, long⟩ := ih failed
        exact ⟨rfl, long.outward (.item found member)⟩
      · cases impossible
    · rename_i entries found
      split at failed
      · cases failed
      obtain failed | ⟨_, _, impossible⟩ := bind_fails failed
      · obtain ⟨⟨key, b⟩, member, failed⟩ := mapM_fails failed
        obtain failed | ⟨_, _, failed⟩ := bind_fails failed
        · obtain ⟨long, rfl⟩ := Datum.display_fails.mp failed
          exact ⟨rfl, _, .refl, .key found member long⟩
        · obtain failed | ⟨_, _, impossible⟩ := bind_fails failed
          · obtain ⟨rfl, long⟩ := ih failed
            exact ⟨rfl, long.outward (.value found member)⟩
          · cases impossible
      · cases impossible
    · rename_i items found
      split at failed
      · cases failed
      obtain failed | ⟨_, _, impossible⟩ := bind_fails failed
      · obtain ⟨⟨⟨b, c⟩, index⟩, member, failed⟩ := mapM_fails failed
        have there := List.mem_zipIdx_iff_getElem?.mp member
        have pair : l.Shows (.collection id) (.pair id index) := .pair found (List.getElem?_eq_some_iff.mp there).1
        dsimp only at failed
        split at failed
        · cases failed
        obtain failed | ⟨_, _, failed⟩ := bind_fails failed
        · obtain ⟨rfl, long⟩ := ih failed
          exact ⟨rfl, (long.outward (.first found there)).outward pair⟩
        · obtain failed | ⟨_, _, impossible⟩ := bind_fails failed
          · obtain ⟨rfl, long⟩ := ih failed
            exact ⟨rfl, (long.outward (.second found there)).outward pair⟩
          · cases impossible
      · cases impossible

-- A step that keeps off what is around.
def Onward (l : Loaded) (around : List Mark) (m n : Mark) : Prop := l.Shows m n ∧ n ∉ around

-- There is a number that is too long, on a way that keeps off what is around.
def HasLongOff (l : Loaded) (around : List Mark) (m : Mark) : Prop :=
  ∃ n, Relation.ReflTransGen (l.Onward around) m n ∧ l.ShowsLong n

theorem hasLongOff_nil {m : Mark} : l.HasLongOff [] m ↔ l.HasLong m := by
  have same : l.Onward [] = l.Shows := by
    funext m n
    exact propext (and_iff_left List.not_mem_nil)
  rw [HasLongOff, HasLong, same]

-- A way from a mark need not come back to the mark.
theorem onward_first {around : List Mark} {m n : Mark} (way : Relation.ReflTransGen (l.Onward around) m n) :
    m = n ∨ ∃ k, l.Shows m k ∧ k ∉ m :: around ∧ Relation.ReflTransGen (l.Onward (m :: around)) k n := by
  induction way with
  | refl => exact .inl rfl
  | @tail k n _ step ih =>
    by_cases back : m = n
    · exact .inl back
    have off : n ∉ m :: around := List.not_mem_cons_of_ne_of_not_mem (Ne.symm back) step.2
    obtain rfl | ⟨next, shown, before, way⟩ := ih
    · exact .inr ⟨n, step.1, off, .refl⟩
    · exact .inr ⟨next, shown, before, way.tail ⟨step.1, off⟩⟩

theorem HasLongOff.step {around : List Mark} {m : Mark} : l.HasLongOff around m →
    l.ShowsLong m ∨ ∃ k, l.Shows m k ∧ k ∉ m :: around ∧ l.HasLongOff (m :: around) k := by
  rintro ⟨n, way, long⟩
  obtain rfl | ⟨k, shown, off, way⟩ := onward_first way
  · exact .inl long
  · exact .inr ⟨k, shown, off, n, way, long⟩

def Mark.isCollection : Mark → Bool
  | .collection _ => true
  | .pair _ _ => false

-- What is around a value: no collection twice, so that there are no more than values.
structure Around (l : Loaded) (around : List Mark) : Prop where
  distinct : around.Nodup
  inside : ∀ a, .collection a ∈ around → a < l.values.size

theorem value?_lt {v : Value} (found : l.value? id = some v) : id < l.values.size := by
  unfold value? at found
  by_contra! outside
  rw [Array.getElem?_eq_none outside] at found
  cases found

theorem Around.count_le {around : List Mark} (held : l.Around around) :
    around.countP Mark.isCollection ≤ l.values.size := by
  have subset : around.filter Mark.isCollection ⊆ (List.range l.values.size).map Mark.collection := by
    intro m member
    obtain ⟨member, collection⟩ := List.mem_filter.mp member
    cases m with
    | collection a => exact List.mem_map_of_mem (List.mem_range.mpr (held.inside a member))
    | pair => cases collection
  have length := ((held.distinct.filter _).subperm subset).length_le
  rwa [← List.countP_eq_length_filter, List.length_map, List.length_range] at length

theorem Around.collection {around : List Mark} (held : l.Around around) (off : .collection id ∉ around)
    (there : id < l.values.size) : l.Around (.collection id :: around) := by
  refine ⟨List.nodup_cons.mpr ⟨off, held.distinct⟩, fun a member => ?_⟩
  obtain same | member := List.mem_cons.mp member
  · cases same
    exact there
  · exact held.inside a member

theorem Around.pair {around : List Mark} {index : Nat} (held : l.Around around) (off : .pair id index ∉ around) :
    l.Around (.pair id index :: around) := by
  refine ⟨List.nodup_cons.mpr ⟨off, held.distinct⟩, fun a member => ?_⟩
  obtain same | member := List.mem_cons.mp member
  · cases same
  · exact held.inside a member

section Display

variable {around : List Mark}

theorem display_list (found : l.value? id = some (.list items)) (off : .collection id ∉ around)
    (shown : l.display (fuel + 1) around id = .ok cs) :
    ∀ b ∈ items, ∃ cs, l.display fuel (.collection id :: around) b = .ok cs := by
  rw [display, found] at shown
  dsimp only at shown
  rw [if_neg (by simpa using off)] at shown
  obtain ⟨_, mapped, _⟩ := bind_parts shown
  intro b member
  obtain ⟨cs, _, done⟩ := (forall₂_mem (mapM_parts.mp mapped)).1 b member
  exact ⟨cs, done⟩

theorem display_dict {entries : List (Datum × Nat)} (found : l.value? id = some (.dict entries))
    (off : .collection id ∉ around) (shown : l.display (fuel + 1) around id = .ok cs) :
    ∀ entry ∈ entries, (∃ cs, entry.1.display = .ok cs) ∧
      ∃ cs, l.display fuel (.collection id :: around) entry.2 = .ok cs := by
  rw [display, found] at shown
  dsimp only at shown
  rw [if_neg (by simpa using off)] at shown
  obtain ⟨_, mapped, _⟩ := bind_parts shown
  intro entry member
  obtain ⟨_, _, done⟩ := (forall₂_mem (mapM_parts.mp mapped)).1 entry member
  obtain ⟨name, named, done⟩ := bind_parts done
  obtain ⟨cs, done, _⟩ := bind_parts done
  exact ⟨⟨name, named⟩, cs, done⟩

theorem display_pairs {pairs : List (Nat × Nat)} (found : l.value? id = some (.pairs pairs))
    (off : .collection id ∉ around) (shown : l.display (fuel + 1) around id = .ok cs)
    {index first second : Nat} (there : pairs[index]? = some (first, second))
    (out : .pair id index ∉ Mark.collection id :: around) :
    (∃ cs, l.display fuel (.pair id index :: .collection id :: around) first = .ok cs) ∧
      ∃ cs, l.display fuel (.pair id index :: .collection id :: around) second = .ok cs := by
  rw [display, found] at shown
  dsimp only at shown
  rw [if_neg (by simpa using off)] at shown
  obtain ⟨_, mapped, _⟩ := bind_parts shown
  obtain ⟨_, _, done⟩ := (forall₂_mem (mapM_parts.mp mapped)).1 ((first, second), index)
    (List.mem_zipIdx_iff_getElem?.mpr there)
  dsimp only at done
  rw [if_neg (by simpa using out)] at done
  obtain ⟨one, done, other⟩ := bind_parts done
  obtain ⟨two, other, _⟩ := bind_parts other
  exact ⟨⟨one, done⟩, two, other⟩

-- A value that is shown has no number that is too long. The number of values bounds how deep the showing goes.
theorem display_short (shown : l.display fuel around id = .ok cs) (off : .collection id ∉ around)
    (held : l.Around around) (room : l.values.size < around.countP Mark.isCollection + fuel) :
    ¬l.HasLongOff around (.collection id) := by
  induction fuel generalizing around id cs with
  | zero =>
    have bound := held.count_le
    omega
  | succ fuel ih =>
    intro long
    obtain long | ⟨_, step, out, long⟩ := long.step
    · cases long with
      | datum found long =>
        rw [display, found] at shown
        cases shown.symm.trans (Datum.display_fails.mpr ⟨long, rfl⟩)
      | member found member long =>
        rw [display, found] at shown
        exact displaySet_short shown _ member long
      | key found member long =>
        obtain ⟨_, named⟩ := (display_dict found off shown _ member).1
        cases named.symm.trans (Datum.display_fails.mpr ⟨long, rfl⟩)
    · have deeper : l.values.size < (Mark.collection id :: around).countP Mark.isCollection + fuel := by
        rw [List.countP_cons_of_pos (by rfl)]
        omega
      cases step with
      | item found member =>
        obtain ⟨_, done⟩ := display_list found off shown _ member
        exact ih done out (held.collection off (value?_lt found)) deeper long
      | value found member =>
        obtain ⟨_, done⟩ := (display_dict found off shown _ member).2
        exact ih done out (held.collection off (value?_lt found)) deeper long
      | pair found _ =>
        have inside := (held.collection off (value?_lt found)).pair out
        rw [← List.countP_cons_of_neg (a := Mark.pair _ _) (by simp [Mark.isCollection])] at deeper
        obtain impossible | ⟨_, step, out', long⟩ := long.step
        · cases impossible
        cases step with
        | first found' there =>
          cases found.symm.trans found'
          obtain ⟨_, done⟩ := (display_pairs found off shown there out).1
          exact ih done out' inside deeper long
        | second found' there =>
          cases found.symm.trans found'
          obtain ⟨_, done⟩ := (display_pairs found off shown there out).2
          exact ih done out' inside deeper long

end Display

theorem le_foldl {α : Type} {f : Nat → α → Nat} (grows : ∀ n a, n ≤ f n a) (l : List α) (start : Nat) :
    start ≤ l.foldl f start := by
  induction l generalizing start with
  | nil => exact Nat.le_refl _
  | cons a l ih => exact Nat.le_trans (grows start a) (ih _)

theorem size_lt_displayFuel : l.values.size + 1 < l.displayFuel := by
  unfold displayFuel
  rw [← Array.foldl_toList]
  refine le_foldl (fun n v => ?_) _ _
  split
  · exact Nat.le_add_right _ _
  · exact Nat.le_refl _

section Pairs

variable {pairs : List (Nat × Nat)} {index first second : Nat}

theorem displayPair_fails (found : l.value? id = some (.pairs pairs)) (there : pairs[index]? = some (first, second))
    (failed : l.displayPair id index first second = .error e) : e = .textTooLong ∧ l.HasLong (.pair id index) := by
  obtain failed | ⟨_, _, failed⟩ := bind_fails failed
  · obtain ⟨rfl, long⟩ := display_fails failed
    exact ⟨rfl, long.outward (.first found there)⟩
  · obtain failed | ⟨_, _, impossible⟩ := bind_fails failed
    · obtain ⟨rfl, long⟩ := display_fails failed
      exact ⟨rfl, long.outward (.second found there)⟩
    · cases impossible

theorem displayPair_short (found : l.value? id = some (.pairs pairs)) (there : pairs[index]? = some (first, second))
    (shown : l.displayPair id index first second = .ok cs) : ¬l.HasLong (.pair id index) := by
  obtain ⟨one, done, shown⟩ := bind_parts shown
  obtain ⟨two, other, _⟩ := bind_parts shown
  have held : l.Around [.pair id index] :=
    .pair ⟨List.nodup_nil, fun _ impossible => by cases impossible⟩ List.not_mem_nil
  have room : l.values.size < [Mark.pair id index].countP Mark.isCollection + l.displayFuel :=
    Nat.lt_add_left _ (Nat.lt_of_succ_lt size_lt_displayFuel)
  rw [← hasLongOff_nil]
  intro long
  obtain impossible | ⟨_, step, out, long⟩ := long.step
  · cases impossible
  cases step with
  | first found' there' =>
    cases found.symm.trans found'
    cases there.symm.trans there'
    exact display_short done out held room long
  | second found' there' =>
    cases found.symm.trans found'
    cases there.symm.trans there'
    exact display_short other out held room long

end Pairs

/-! ### Plain forms -/

-- What a value is written out with: the values of a mapping and the items of a list.
def Leads (l : Loaded) (a b : Nat) : Prop := l.Shows (.collection a) (.collection b)

-- A text that stands for a key, a set or a pair has a number that is too long.
inductive Unwritten (l : Loaded) (id : Nat) : Prop
  | key {d : Datum} {b : Nat} {entries : List (Datum × Nat)} : l.value? id = some (.dict entries) →
      (d, b) ∈ entries → d.Long → Unwritten l id
  | set {d : Datum} {members : List Datum} : l.value? id = some (.set members) → d ∈ members → d.Long → Unwritten l id
  | pair {index : Nat} {pairs : List (Nat × Nat)} : l.value? id = some (.pairs pairs) → index < pairs.length →
      l.HasLong (.pair id index) → Unwritten l id

-- The tree that a value is written out as: what is shared stands at each place where it is used.
inductive Unfolds (l : Loaded) : Nat → Json → Prop
  | missing {id : Nat} : l.value? id = none → Unfolds l id .null
  | datum {id : Nat} {d : Datum} {j : Json} : l.value? id = some (.datum d) → d.toJson = .ok j → Unfolds l id j
  | set {id : Nat} {members : List Datum} {shown : List Char} : l.value? id = some (.set members) →
      displaySet members = .ok shown → Unfolds l id (.str (Text.ofChars shown))
  | pairs {id : Nat} {pairs : List (Nat × Nat)} {shown : List (List Char)} : l.value? id = some (.pairs pairs) →
      List.Forall₂ (fun p cs => l.displayPair id p.2 p.1.1 p.1.2 = .ok cs) pairs.zipIdx shown →
      Unfolds l id (.arr (shown.map fun cs => .str (Text.ofChars cs)))
  | list {id : Nat} {items : List Nat} {js : List Json} : l.value? id = some (.list items) →
      items.length = js.length → (∀ p ∈ items.zip js, Unfolds l p.1 p.2) → Unfolds l id (.arr js)
  | dict {id : Nat} {entries : List (Datum × Nat)} {fields : List (Text × Json)} : l.value? id = some (.dict entries) →
      entries.length = fields.length → (∀ p ∈ entries.zip fields, p.1.1.fieldName = .ok p.2.1) →
      (∀ p ∈ entries.zip fields, Unfolds l p.1.2 p.2.2) →
      Unfolds l id (.obj (Json.distinctFields fields))

theorem liftNumber_done {α : Type} {r : Except NumberError α} {x : α} : liftNumber r = .ok x ↔ r = .ok x := by
  cases r <;> simp [liftNumber, Except.mapError]

theorem liftNumber_fails {α : Type} {r : Except NumberError α} {e : PlainError} :
    liftNumber r = .error e ↔ ∃ e', r = .error e' ∧ e = .number e' := by
  cases r <;> simp [liftNumber, Except.mapError, eq_comm]

theorem toJsonFrom_unfolds {around : List Nat} {j : Json} (done : l.toJsonFrom fuel around id = .ok j) :
    l.Unfolds id j := by
  induction fuel generalizing around id j with
  | zero => cases done
  | succ fuel ih =>
    rw [toJsonFrom] at done
    split at done
    · cases done
      exact .missing ‹_›
    · exact .datum ‹_› (liftNumber_done.mp done)
    · obtain ⟨cs, shown, done⟩ := bind_parts done
      cases done
      exact .set ‹_› (liftNumber_done.mp shown)
    · split at done
      · cases done
      obtain ⟨js, mapped, done⟩ := bind_parts done
      cases done
      obtain ⟨length, each⟩ := List.forall₂_iff_zip.mp (mapM_parts.mp mapped)
      exact .list ‹_› length fun p member => ih (each member)
    · rename_i entries found
      split at done
      · cases done
      obtain ⟨fields, mapped, done⟩ := bind_parts done
      cases done
      obtain ⟨length, each⟩ := List.forall₂_iff_zip.mp (mapM_parts.mp mapped)
      have field : ∀ p ∈ entries.zip fields, p.1.1.fieldName = .ok p.2.1 ∧ l.Unfolds p.1.2 p.2.2 := by
        rintro ⟨⟨key, value⟩, field⟩ member
        obtain ⟨name, named, rest⟩ := bind_parts (each member)
        obtain ⟨j, made, same⟩ := bind_parts rest
        cases same
        exact ⟨liftNumber_done.mp named, ih made⟩
      exact .dict found length (fun p member => (field p member).1) fun p member => (field p member).2
    · split at done
      · cases done
      obtain ⟨shown, mapped, done⟩ := bind_parts done
      cases done
      exact .pairs ‹_› ((mapM_parts.mp mapped).imp fun _ _ => liftNumber_done.mp)

theorem Unfolds.leads {a b : Nat} {j : Json} (unfolds : l.Unfolds a j) (step : l.Leads a b) : ∃ j, l.Unfolds b j := by
  cases step with
  | item found member =>
    cases unfolds with
    | list found' length each =>
      cases found.symm.trans found'
      obtain ⟨j, _, inside⟩ := (forall₂_mem (List.forall₂_iff_zip.mpr ⟨length, @fun a j => each (a, j)⟩)).1 b member
      exact ⟨j, inside⟩
    | _ found' => cases found.symm.trans found'
  | value found member =>
    cases unfolds with
    | dict found' length _ each =>
      cases found.symm.trans found'
      obtain ⟨field, _, inside⟩ := (forall₂_mem
        (List.forall₂_iff_zip.mpr ⟨length, @fun entry field => each (entry, field)⟩)).1 _ member
      exact ⟨field.2, inside⟩
    | _ found' => cases found.symm.trans found'

-- What is written out does not lead back to itself: a tree is left sooner or later.
theorem Unfolds.acyclic {a : Nat} {j : Json} (unfolds : l.Unfolds a j) : ¬Relation.TransGen l.Leads a a := by
  have leaf {a : Nat} (ends : ∀ b, ¬l.Leads a b) : ¬Relation.TransGen l.Leads a a := by
    intro loop
    obtain ⟨b, step, _⟩ := Relation.TransGen.head'_iff.mp loop
    exact ends b step
  -- A cycle at a collection is one at the next value on it too.
  have inner {a : Nat} (each : ∀ b, l.Leads a b → ¬Relation.TransGen l.Leads b b) : ¬Relation.TransGen l.Leads a a := by
    intro loop
    obtain ⟨b, step, way⟩ := Relation.TransGen.head'_iff.mp loop
    exact each b step (.tail' way step)
  induction unfolds with
  | list found length _ ih =>
    refine inner fun b step => ?_
    cases step with
    | item found' member =>
      cases found.symm.trans found'
      obtain ⟨j, _, acyclic⟩ := (forall₂_mem (List.forall₂_iff_zip.mpr ⟨length, @fun a j => ih (a, j)⟩)).1 b member
      exact acyclic
    | value found' => cases found.symm.trans found'
  | dict found length _ _ ih =>
    refine inner fun b step => ?_
    cases step with
    | item found' => cases found.symm.trans found'
    | value found' member =>
      cases found.symm.trans found'
      obtain ⟨field, _, acyclic⟩ := (forall₂_mem
        (List.forall₂_iff_zip.mpr ⟨length, @fun entry field => ih (entry, field)⟩)).1 _ member
      exact acyclic
  | _ found =>
    refine leaf fun b step => ?_
    cases step with
    | _ found' => cases found.symm.trans found'

theorem Unfolds.written {a : Nat} {j : Json} (unfolds : l.Unfolds a j) : ¬l.Unwritten a := by
  intro unwritten
  cases unwritten with
  | key found member long =>
    cases unfolds with
    | dict found' length named _ =>
      cases found.symm.trans found'
      obtain ⟨field, _, named⟩ := (forall₂_mem
        (List.forall₂_iff_zip.mpr ⟨length, @fun entry field => named (entry, field)⟩)).1 _ member
      cases named.symm.trans (Datum.fieldName_fails.mpr ⟨long, rfl⟩)
    | _ found' => cases found.symm.trans found'
  | set found member long =>
    cases unfolds with
    | set found' shown =>
      cases found.symm.trans found'
      exact displaySet_short shown _ member long
    | _ found' => cases found.symm.trans found'
  | @pair index pairs found inside long =>
    cases unfolds with
    | pairs found' shown =>
      cases found.symm.trans found'
      have there : pairs[index]? = some (pairs[index].1, pairs[index].2) := List.getElem?_eq_getElem inside
      obtain ⟨cs, _, shown⟩ := (forall₂_mem shown).1 (pairs[index], index) (List.mem_zipIdx_iff_getElem?.mpr there)
      exact displayPair_short found there shown long
    | _ found' => cases found.symm.trans found'

theorem forall₂_unique {α β : Type} {r s : α → β → Prop} (same : ∀ a b c, r a b → s a c → b = c) {l : List α}
    {bs cs : List β} (one : List.Forall₂ r l bs) (two : List.Forall₂ s l cs) : bs = cs := by
  induction one generalizing cs with
  | nil =>
    cases two
    rfl
  | cons first _ ih =>
    cases two with
    | cons second others => rw [same _ _ _ first second, ih others]

theorem Unfolds.unique {a : Nat} {j j' : Json} (one : l.Unfolds a j) (two : l.Unfolds a j') : j = j' := by
  induction one generalizing j' with
  | missing found =>
    cases two with
    | missing => rfl
    | _ found' => cases found.symm.trans found'
  | datum found made =>
    cases two with
    | datum found' made' =>
      cases found.symm.trans found'
      exact Except.ok.inj (made.symm.trans made')
    | _ found' => cases found.symm.trans found'
  | set found shown =>
    cases two with
    | set found' shown' =>
      cases found.symm.trans found'
      cases shown.symm.trans shown'
      rfl
    | _ found' => cases found.symm.trans found'
  | pairs found shown =>
    cases two with
    | pairs found' shown' =>
      cases found.symm.trans found'
      rw [forall₂_unique (fun _ _ _ one two => Except.ok.inj (one.symm.trans two)) shown shown']
    | _ found' => cases found.symm.trans found'
  | list found length _ ih =>
    cases two with
    | list found' length' each =>
      cases found.symm.trans found'
      rw [forall₂_unique (fun _ _ _ one two => one two) (List.forall₂_iff_zip.mpr ⟨length, @fun a j => ih (a, j)⟩)
        (List.forall₂_iff_zip.mpr ⟨length', @fun a j => each (a, j)⟩)]
    | _ found' => cases found.symm.trans found'
  | @dict _ entries fields found length named _ ih =>
    cases two with
    | @dict _ _ fields' found' length' named' each =>
      cases found.symm.trans found'
      have one : List.Forall₂ (fun entry field => entry.1.fieldName = .ok field.1 ∧
          ∀ {j'}, l.Unfolds entry.2 j' → field.2 = j') entries fields :=
        List.forall₂_iff_zip.mpr ⟨length, @fun entry field member =>
          ⟨named (entry, field) member, ih (entry, field) member⟩⟩
      have two : List.Forall₂ (fun entry field => entry.1.fieldName = .ok field.1 ∧ l.Unfolds entry.2 field.2)
          entries fields' :=
        List.forall₂_iff_zip.mpr ⟨length', @fun entry field member =>
          ⟨named' (entry, field) member, each (entry, field) member⟩⟩
      rw [forall₂_unique ?_ one two]
      rintro _ ⟨name, j⟩ ⟨name', j'⟩ ⟨named, same⟩ ⟨named', inside⟩
      cases named.symm.trans named'
      rw [show j = j' from same inside]
    | _ found' => cases found.symm.trans found'

/-! ### Documents without a plain form -/

def Circular (l : Loaded) (id : Nat) : Prop :=
  ∃ c, Relation.ReflTransGen l.Leads id c ∧ Relation.TransGen l.Leads c c

def Unwritable (l : Loaded) (id : Nat) : Prop := ∃ c, Relation.ReflTransGen l.Leads id c ∧ l.Unwritten c

-- Why a value has no plain form.
inductive Balks (l : Loaded) (id : Nat) : PlainError → Prop
  | circular : l.Circular id → Balks l id .circular
  | number : l.Unwritable id → Balks l id (.number .textTooLong)

theorem Balks.outward {a b : Nat} {e : PlainError} (step : l.Leads a b) (balks : l.Balks b e) : l.Balks a e := by
  cases balks with
  | circular circular =>
    obtain ⟨c, way, loop⟩ := circular
    exact .circular ⟨c, .head step way, loop⟩
  | number unwritable =>
    obtain ⟨c, way, unwritten⟩ := unwritable
    exact .number ⟨c, .head step way, unwritten⟩

theorem Unfolds.reached {a b : Nat} {j : Json} (unfolds : l.Unfolds a j) (way : Relation.ReflTransGen l.Leads a b) :
    ∃ j, l.Unfolds b j := by
  induction way with
  | refl => exact ⟨j, unfolds⟩
  | tail _ step ih =>
    obtain ⟨_, inside⟩ := ih
    exact inside.leads step

theorem Unfolds.settled {a : Nat} {j : Json} {e : PlainError} (unfolds : l.Unfolds a j) : ¬l.Balks a e := by
  intro balks
  cases balks with
  | circular circular =>
    obtain ⟨c, way, loop⟩ := circular
    obtain ⟨_, inside⟩ := unfolds.reached way
    exact inside.acyclic loop
  | number unwritable =>
    obtain ⟨c, way, unwritten⟩ := unwritable
    obtain ⟨_, inside⟩ := unfolds.reached way
    exact inside.written unwritten

-- The way from the root to a value: what is on it leads to the value, and nothing is on it twice.
structure Path (l : Loaded) (around : List Nat) (id : Nat) : Prop where
  leads : ∀ a ∈ around, Relation.TransGen l.Leads a id
  distinct : around.Nodup
  inside : ∀ a ∈ around, a < l.values.size

theorem Path.start : l.Path [] id :=
  ⟨List.forall_mem_nil _, List.nodup_nil, List.forall_mem_nil _⟩

theorem Path.length_le {around : List Nat} (path : l.Path around id) : around.length ≤ l.values.size := by
  have subset : around ⊆ List.range l.values.size := fun a member => List.mem_range.mpr (path.inside a member)
  have length := (path.distinct.subperm subset).length_le
  rwa [List.length_range] at length

theorem Path.step {around : List Nat} {b : Nat} {v : Value} (path : l.Path around id) (off : id ∉ around)
    (found : l.value? id = some v) (step : l.Leads id b) : l.Path (id :: around) b := by
  refine ⟨?_, List.nodup_cons.mpr ⟨off, path.distinct⟩, ?_⟩
  · rintro a (_ | ⟨_, member⟩)
    · exact .single step
    · exact (path.leads a member).tail step
  · rintro a (_ | ⟨_, member⟩)
    · exact value?_lt found
    · exact path.inside a member

-- Fuel never runs out: each step puts one more of the values on the way.
theorem toJsonFrom_fails {around : List Nat} {e : PlainError} (path : l.Path around id)
    (room : l.values.size < around.length + fuel) (failed : l.toJsonFrom fuel around id = .error e) : l.Balks id e := by
  induction fuel generalizing around id e with
  | zero =>
    have bound := path.length_le
    omega
  | succ fuel ih =>
    have again (seen : around.contains id = true) : l.Balks id .circular :=
      .circular ⟨id, .refl, path.leads id (by simpa using seen)⟩
    have deeper : l.values.size < (id :: around).length + fuel := by
      rw [List.length_cons]
      omega
    rw [toJsonFrom] at failed
    split at failed
    · cases failed
    · rename_i d found
      obtain ⟨_, refused, rfl⟩ := liftNumber_fails.mp failed
      obtain ⟨j, made⟩ := d.toJson_done
      cases made.symm.trans refused
    · rename_i members found
      obtain failed | ⟨_, _, impossible⟩ := bind_fails failed
      · obtain ⟨_, refused, rfl⟩ := liftNumber_fails.mp failed
        obtain ⟨rfl, d, member, long⟩ := displaySet_fails refused
        exact .number ⟨id, .refl, .set found member long⟩
      · cases impossible
    · rename_i items found
      split at failed
      · cases failed
        exact again ‹_›
      have off : id ∉ around := by simpa using ‹¬around.contains id = true›
      obtain failed | ⟨_, _, impossible⟩ := bind_fails failed
      · obtain ⟨b, member, failed⟩ := mapM_fails failed
        have step : l.Leads id b := .item found member
        exact .outward step (ih (path.step off found step) deeper failed)
      · cases impossible
    · rename_i entries found
      split at failed
      · cases failed
        exact again ‹_›
      have off : id ∉ around := by simpa using ‹¬around.contains id = true›
      obtain failed | ⟨_, _, impossible⟩ := bind_fails failed
      · obtain ⟨⟨key, b⟩, member, failed⟩ := mapM_fails failed
        obtain failed | ⟨_, _, failed⟩ := bind_fails failed
        · obtain ⟨_, refused, rfl⟩ := liftNumber_fails.mp failed
          obtain ⟨long, rfl⟩ := Datum.fieldName_fails.mp refused
          exact .number ⟨id, .refl, .key found member long⟩
        · obtain failed | ⟨_, _, impossible⟩ := bind_fails failed
          · have step : l.Leads id b := .value found member
            exact .outward step (ih (path.step off found step) deeper failed)
          · cases impossible
      · cases impossible
    · rename_i pairs found
      split at failed
      · cases failed
        exact again ‹_›
      obtain failed | ⟨_, _, impossible⟩ := bind_fails failed
      · obtain ⟨⟨⟨b, c⟩, index⟩, member, failed⟩ := mapM_fails failed
        obtain ⟨_, refused, rfl⟩ := liftNumber_fails.mp failed
        have there := List.mem_zipIdx_iff_getElem?.mp member
        obtain ⟨rfl, long⟩ := displayPair_fails found there refused
        exact .number ⟨id, .refl, .pair found (List.getElem?_eq_some_iff.mp there).1 long⟩
      · cases impossible

theorem mapM_congr {ε α β : Type} {f g : α → Except ε β} {items : List α} (same : ∀ a ∈ items, f a = g a) :
    items.mapM f = items.mapM g := by
  induction items with
  | nil => rfl
  | cons a items ih =>
    rw [List.mapM_cons, List.mapM_cons, same a List.mem_cons_self,
      ih fun b member => same b (List.mem_cons_of_mem _ member)]

theorem toJsonFrom_fuel {around : List Nat} {more : Nat} (path : l.Path around id)
    (room : l.values.size < around.length + fuel) :
    l.toJsonFrom (fuel + more) around id = l.toJsonFrom fuel around id := by
  induction fuel generalizing around id with
  | zero =>
    have bound := path.length_le
    omega
  | succ fuel ih =>
    have deeper : l.values.size < (id :: around).length + fuel := by
      rw [List.length_cons]
      omega
    rw [Nat.add_right_comm, toJsonFrom, toJsonFrom]
    cases found : l.value? id with
    | none => rfl
    | some v =>
      have off (seen : ¬around.contains id = true) : id ∉ around := by simpa using seen
      cases v with
      | list items =>
        dsimp only
        by_cases seen : around.contains id = true
        · rw [if_pos seen, if_pos seen]
        · rw [mapM_congr fun b member => ih (path.step (off seen) found (.item found member)) deeper]
      | dict entries =>
        dsimp only
        by_cases seen : around.contains id = true
        · rw [if_pos seen, if_pos seen]
        · rw [mapM_congr]
          rintro ⟨key, b⟩ member
          dsimp only
          rw [ih (path.step (off seen) found (.value found member)) deeper]
      | _ => rfl

-- The plain form of a document, as what its root is written out as.
def Unfolded (l : Loaded) (j : Json) : Prop :=
  match l.root with
  | none => j = .null
  | some root => l.Unfolds root j

-- A document comes to its unfolding, or else a cycle or a number that is too long is reached from its root.
theorem toJson_exact (l : Loaded) :
    (∀ j, l.toJson = .ok j ↔ l.Unfolded j) ∧
    (∀ j j', l.Unfolded j → l.Unfolded j' → j = j') ∧
    ((∃ e, l.toJson = .error e) ↔ ∃ root ∈ l.root, l.Circular root ∨ l.Unwritable root) ∧
    (l.toJson = .error .circular → ∃ root ∈ l.root, l.Circular root) ∧
    (∀ e, l.toJson = .error (.number e) → e = .textTooLong ∧ ∃ root ∈ l.root, l.Unwritable root) ∧
    ∀ root ∈ l.root, ∀ more, l.toJsonFrom (l.values.size + 1 + more) [] root = l.toJson := by
  unfold toJson Unfolded
  cases l.root with
  | none =>
    refine ⟨fun j => ?_, fun j j' one two => one.trans two.symm, ?_, ?_, ?_, ?_⟩
    · exact ⟨fun same => (Except.ok.inj same).symm, fun same => congrArg _ same.symm⟩
    · simp
    · simp
    · simp
    · simp
  | some root =>
    have room : l.values.size < ([] : List Nat).length + (l.values.size + 1) := by
      rw [List.length_nil]
      omega
    have fails {e : PlainError} (failed : l.toJsonFrom (l.values.size + 1) [] root = .error e) : l.Balks root e :=
      toJsonFrom_fails .start room failed
    have unfolds (j : Json) : l.toJsonFrom (l.values.size + 1) [] root = .ok j ↔ l.Unfolds root j := by
      refine ⟨toJsonFrom_unfolds, fun unfolds => ?_⟩
      cases done : l.toJsonFrom (l.values.size + 1) [] root with
      | ok j' => rw [unfolds.unique (toJsonFrom_unfolds done)]
      | error e => exact absurd (fails done) unfolds.settled
    refine ⟨unfolds, fun j j' one two => one.unique two, ⟨?_, ?_⟩, fun failed => ?_, fun e failed => ?_, ?_⟩
    · rintro ⟨e, failed⟩
      refine ⟨root, rfl, ?_⟩
      cases fails failed with
      | circular circular => exact .inl circular
      | number unwritable => exact .inr unwritable
    · rintro ⟨_, ⟨⟩, balks⟩
      obtain ⟨e, balks⟩ : ∃ e, l.Balks root e :=
        balks.elim (fun circular => ⟨_, .circular circular⟩) fun long => ⟨_, .number long⟩
      cases done : l.toJsonFrom (l.values.size + 1) [] root with
      | ok j => exact absurd balks (toJsonFrom_unfolds done).settled
      | error e => exact ⟨e, done⟩
    · cases fails failed with
      | circular circular => exact ⟨root, rfl, circular⟩
    · cases fails failed with
      | number unwritable => exact ⟨rfl, root, rfl, unwritable⟩
    · rintro _ ⟨⟩ more
      exact toJsonFrom_fuel .start room

-- A mapping with a single entry.
def lone (key : Datum) : Loaded := ⟨#[some (.dict [(key, 1)]), some (.datum .null)], some 0⟩

variable {key : Datum}

theorem lone_acyclic : ¬(lone key).Circular 0 := by
  have dict : (lone key).value? 0 = some (.dict [(key, 1)]) := rfl
  have leads {a b : Nat} (step : (lone key).Leads a b) : a = 0 ∧ b = 1 := by
    match a with
    | 0 =>
      cases step with
      | item found => cases dict.symm.trans found
      | value found member =>
        cases dict.symm.trans found
        cases List.mem_singleton.mp member
        exact ⟨rfl, rfl⟩
    | 1 => cases step with | item found | value found => cases found
    | a + 2 => cases step with | item found | value found => cases found
  rintro ⟨c, _, loop⟩
  obtain ⟨b, step, way⟩ := Relation.TransGen.head'_iff.mp loop
  obtain ⟨rfl, rfl⟩ := leads step
  obtain same | ⟨_, step, _⟩ := way.cases_head
  · cases same
  · cases (leads step).1

theorem lone_fails (named : key.fieldName = .error e) : (lone key).toJson = .error (.number e) := by
  change Except.bind (Except.bind (Except.bind (liftNumber key.fieldName) _) _) _ = _
  rw [named]
  rfl

-- An integer of more digits than are written stands in no cycle, and still there is no plain form.
theorem toJson_longKey :
    ¬(lone (.int (16 ^ 3600))).Circular 0 ∧ (lone (.int (16 ^ 3600))).toJson = .error (.number .textTooLong) := by
  exact ⟨lone_acyclic, lone_fails (Datum.fieldName_fails.mpr ⟨Integer.power_long, rfl⟩)⟩

end Loaded
end InlineProject.Yaml
