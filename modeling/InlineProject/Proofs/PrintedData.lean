import Mathlib
import InlineProject.Proofs.DraftedProject
/-!
The characters of printed values. Numbers and data are written with printable characters of ASCII, so their
texts can stand in any markup.
-/

namespace InlineProject

variable {cs rest : List Char} {c : Char} {n : Nat}

def isPrinted (c : Char) : Bool := 0x20 ≤ c.toNat && c.toNat < 0x7F

def Printed (cs : List Char) : Prop := cs.all isPrinted = true

instance : Decidable (Printed cs) := inferInstanceAs (Decidable (_ = true))

theorem printed_iff : Printed cs ↔ ∀ c ∈ cs, isPrinted c = true := List.all_eq_true

theorem Printed.nil : Printed [] := rfl

theorem printed_append : Printed (cs ++ rest) ↔ Printed cs ∧ Printed rest := by
  simp [Printed]

theorem printed_cons : Printed (c :: cs) ↔ Printed [c] ∧ Printed cs := by
  simp [Printed]

theorem printed_flatMap {α : Type} {l : List α} {f : α → List Char} (each : ∀ a ∈ l, Printed (f a)) :
    Printed (l.flatMap f) := by
  rw [printed_iff]
  intro c member
  obtain ⟨a, among, inside⟩ := List.mem_flatMap.mp member
  exact printed_iff.mp (each a among) c inside

/-! ### Numbers -/

-- The characters of numbers. A digit of a base beyond sixteen has no sign of its own.
def isNumeral (c : Char) : Bool := c.isAlphanum || c == '.' || c == '+' || c == '-' || c == '*'

def Numeral (cs : List Char) : Prop := ∀ c ∈ cs, isNumeral c = true

instance : Decidable (Numeral cs) := decidable_of_iff (cs.all isNumeral = true) List.all_eq_true

theorem isPrinted_of_isNumeral (numeral : isNumeral c = true) : isPrinted c = true := by
  simp only [isNumeral, isPrinted, Char.isAlphanum, Char.isAlpha, Char.isUpper, Char.isLower, Char.isDigit,
    Bool.or_eq_true, Bool.and_eq_true, decide_eq_true_eq, beq_iff_eq, UInt32.le_iff_toNat_le] at numeral ⊢
  obtain ((((numeral | numeral) | rfl) | rfl) | rfl) | rfl := numeral
  · obtain ⟨least, most⟩ | ⟨least, most⟩ := numeral
    · exact ⟨Nat.le_trans (by decide) least, Nat.lt_of_le_of_lt most (by decide)⟩
    · exact ⟨Nat.le_trans (by decide) least, Nat.lt_of_le_of_lt most (by decide)⟩
  · exact ⟨Nat.le_trans (by decide) numeral.1, Nat.lt_of_le_of_lt numeral.2 (by decide)⟩
  all_goals decide

theorem Numeral.printed (numeral : Numeral cs) : Printed cs :=
  printed_iff.mpr fun c member => isPrinted_of_isNumeral (numeral c member)

theorem Numeral.append (one : Numeral cs) (two : Numeral rest) : Numeral (cs ++ rest) :=
  List.forall_mem_append.mpr ⟨one, two⟩

theorem Numeral.cons (one : isNumeral c = true) (two : Numeral cs) : Numeral (c :: cs) :=
  List.forall_mem_cons.mpr ⟨one, two⟩

theorem numeral_zeros : Numeral (List.replicate n '0') := by
  intro c member
  rw [List.eq_of_mem_replicate member]
  decide

theorem numeral_digitChar (n : Nat) : isNumeral (Nat.digitChar n) = true := by
  by_cases small : n < 16
  · have each : ∀ n < 16, isNumeral (Nat.digitChar n) = true := by decide
    exact each n small
  · have other : Nat.digitChar n = '*' := by
      unfold Nat.digitChar
      repeat rw [if_neg (by omega)]
    rw [other]
    decide

theorem numeral_digits (base n : Nat) : Numeral (Nat.toDigits base n) := by
  have core (fuel : Nat) : ∀ n acc, Numeral acc → Numeral (Nat.toDigitsCore base fuel n acc) := by
    induction fuel with
    | zero => exact fun n acc numeral => numeral
    | succ fuel ih =>
      intro n acc numeral
      have more : Numeral (Nat.digitChar (n % base) :: acc) := .cons (numeral_digitChar _) numeral
      rw [Nat.toDigitsCore]
      split
      · exact more
      · exact ih _ _ more
  exact core (n + 1) n [] (List.forall_mem_nil _)

theorem numeral_padded {width : Nat} (numeral : Numeral cs) : Numeral (Digit.padded width cs) :=
  numeral_zeros.append numeral

-- An integer that is not too long to be written.
def Integer.Short (i : Int) : Prop := (Nat.toDigits 10 i.natAbs).length ≤ NumberError.digitLimit

instance {i : Int} : Decidable (Integer.Short i) := inferInstanceAs (Decidable (_ ≤ _))

theorem toString_int (i : Int) : (toString i).toList
    = if i < 0 then '-' :: Nat.toDigits 10 i.natAbs else Nat.toDigits 10 i.natAbs := by
  cases i with
  | ofNat n => exact Nat.toList_repr
  | negSucc n =>
    have split : toString (Int.negSucc n) = "-" ++ Nat.repr (n + 1) := rfl
    rw [split, String.toList_append, Nat.toList_repr, if_pos (Int.negSucc_lt_zero n)]
    rfl

theorem numeral_int (i : Int) : Numeral (toString i).toList := by
  rw [toString_int]
  split
  · exact .cons (by decide) (numeral_digits 10 _)
  · exact numeral_digits 10 _

theorem printed_int (i : Int) : Printed (toString i).toList := (numeral_int i).printed

theorem Integer.write_exact {i : Int} {s : String} :
    Integer.write i = .ok s ↔ Integer.Short i ∧ s = toString i := by
  have digits : String.ofList (if i < 0 then '-' :: Nat.toDigits 10 i.natAbs else Nat.toDigits 10 i.natAbs)
      = toString i := by
    rw [← toString_int, String.ofList_toList]
  unfold Integer.write Integer.Short
  dsimp only
  rw [digits]
  split
  · rename_i long
    simp [Nat.not_le.mpr long]
  · rename_i short
    simp [Nat.not_lt.mp short, eq_comm]

theorem Integer.write_long {i : Int} (long : ¬Integer.Short i) : Integer.write i = .error .textTooLong := by
  rw [Integer.Short, Nat.not_le] at long
  unfold Integer.write
  dsimp only
  rw [if_pos long]

-- Such an integer is read from its hexadecimal digits, the number of which has no limit.
theorem Integer.power_long : ¬Integer.Short (16 ^ 3600) := by
  unfold Integer.Short NumberError.digitLimit
  rw [Int.natAbs_pow, Nat.length_toDigits_le_iff (by decide) (by decide), Nat.not_lt]
  decide +kernel

theorem numeral_trimmed (point : Int) (found : Option (Nat × Nat)) : Numeral (Shortest.trimmed point found).1 := by
  cases found with
  | none => exact List.forall_mem_nil _
  | some count =>
    obtain ⟨count, n⟩ := count
    intro c member
    apply numeral_digits 10 n
    simp only [Shortest.trimmed, List.mem_reverse] at member
    simpa using (List.dropWhile_sublist _).subset member

theorem numeral_shortest (m : Nat) (e : Int) : Numeral (Shortest.digits m e).1 := numeral_trimmed _ _

theorem numeral_positional (numeral : Numeral cs) (point : Int) : Numeral (Shortest.positional cs point) := by
  have dot : isNumeral '.' = true := by decide
  have zero : isNumeral '0' = true := by decide
  unfold Shortest.positional
  dsimp only
  split
  · exact (Numeral.cons zero (.cons dot numeral_zeros)).append numeral
  · split
    · exact Numeral.append (fun c member => numeral c (List.take_subset _ _ member))
        (.cons dot fun c member => numeral c (List.drop_subset _ _ member))
    · exact (numeral.append numeral_zeros).append (by decide)

theorem numeral_withExponent (numeral : Numeral cs) (width : Nat) (point : Int) :
    Numeral (Shortest.withExponent width cs point) := by
  have sign : isNumeral (if point - 1 < 0 then '-' else '+') = true := by split <;> decide
  have exponent : Numeral (Digit.padded width (Nat.toDigits 10 (point - 1).natAbs)) :=
    numeral_padded (numeral_digits 10 _)
  unfold Shortest.withExponent
  refine .append ?_ (.cons (by decide) (.cons sign exponent))
  match cs, numeral with
  | [], _ => decide
  | [_], numeral => exact numeral
  | _ :: _ :: _, numeral =>
    obtain ⟨first, others⟩ := List.forall_mem_cons.mp numeral
    exact .cons first (.cons (by decide) others)

theorem numeral_place {l : Shortest.Layout} {placed : List Char × Int} (numeral : Numeral placed.1) :
    Numeral (l.place placed) := by
  obtain ⟨ds, point⟩ := placed
  rw [Shortest.Layout.place]
  split
  · exact numeral_positional numeral _
  · exact numeral_withExponent numeral _ _

theorem numeral_real {l : Shortest.Layout} (nan : Numeral l.nanText.toList) (infinity : Numeral l.infinityText.toList)
    (x : Binary64) : Numeral (l.render x) := by
  have sign (negative : Bool) : Numeral (if negative then ['-'] else []) := by cases negative <;> decide
  have nothing : Numeral ['0', '.', '0'] := by decide
  cases x with
  | nan => exact nan
  | infinite negative => exact (sign negative).append infinity
  | finite negative m e =>
    rw [Shortest.Layout.render]
    split
    · exact (sign negative).append nothing
    · exact (sign negative).append (numeral_place (numeral_shortest m e))

theorem printed_text (x : Binary64) : Printed x.text.toList := by
  have numeral : Numeral (Shortest.layout.render x) := numeral_real (by decide) (by decide) x
  unfold Binary64.text
  simpa only [String.toList_ofList] using numeral.printed

/-! ### Data -/

namespace Json

open Project (map_parts bind_parts)

theorem printed_unitEscape (n : Nat) : Printed (unitEscape n) :=
  printed_cons.mpr ⟨by decide, printed_cons.mpr ⟨by decide, (numeral_padded (numeral_digits 16 n)).printed⟩⟩

theorem printed_point (p : CodePoint) : Printed (escapedPoint p) := by
  unfold escapedPoint
  dsimp only
  iterate 7
    split
    · decide
  split
  · rename_i plain
    simp only [Bool.and_eq_true, decide_eq_true_eq] at plain
    have valid : p.toNat.isValidChar := .inl (by omega)
    have same : (Char.ofNat p.toNat).toNat = p.toNat := by
      rw [Char.ofNat, dif_pos valid]
      rfl
    simpa [Printed, isPrinted, same] using plain
  · exact printed_flatMap fun n _ => printed_unitEscape n

theorem printed_quoted (t : Text) : Printed (quoted t) := by
  rw [quoted]
  exact printed_append.mpr ⟨printed_cons.mpr ⟨by decide, printed_flatMap fun p _ => printed_point p⟩, by decide⟩

theorem printed_separated {parts : List (List Char)} (each : ∀ part ∈ parts, Printed part) :
    Printed (separated parts) := by
  unfold separated
  induction parts with
  | nil => decide
  | cons part parts ih =>
    have first := each part List.mem_cons_self
    have others := ih fun p member => each p (List.mem_cons_of_mem _ member)
    cases parts with
    | nil => simpa [List.intercalate] using first
    | cons next parts =>
      rw [List.intercalate_cons_cons]
      exact printed_append.mpr ⟨printed_append.mpr ⟨first, by decide⟩, others⟩

mutual
theorem printed_render : (j : Json) → {cs : List Char} → j.render = .ok cs → Printed cs
  | .null, _, rendered => by
    cases rendered
    decide
  | .bool b, _, rendered => by
    cases rendered
    cases b <;> decide
  | .int i, _, rendered => by
    rw [render] at rendered
    obtain ⟨text, wrote, rfl⟩ := map_parts rendered
    rw [(Integer.write_exact.mp wrote).2]
    exact printed_int i
  | .real x, _, rendered => by
    cases rendered
    exact (numeral_real (by decide) (by decide) x).printed
  | .str t, _, rendered => by
    cases rendered
    exact printed_quoted t
  | .arr items, _, rendered => by
    rw [render] at rendered
    obtain ⟨parts, inside, rendered⟩ := bind_parts rendered
    cases rendered
    have between := printed_separated (printed_items items inside)
    exact printed_append.mpr ⟨printed_cons.mpr ⟨by decide, between⟩, by decide⟩
  | .obj fields, _, rendered => by
    rw [render] at rendered
    obtain ⟨parts, inside, rendered⟩ := bind_parts rendered
    cases rendered
    have between := printed_separated (printed_fields fields inside)
    exact printed_append.mpr ⟨printed_cons.mpr ⟨by decide, between⟩, by decide⟩

theorem printed_items : (items : List Json) → {parts : List (List Char)} → renderItems items = .ok parts →
    ∀ part ∈ parts, Printed part
  | [], _, rendered => by
    cases rendered
    simp
  | item :: rest, _, rendered => by
    rw [renderItems] at rendered
    obtain ⟨part, first, rendered⟩ := bind_parts rendered
    obtain ⟨parts, others, rendered⟩ := bind_parts rendered
    cases rendered
    exact List.forall_mem_cons.mpr ⟨printed_render item first, printed_items rest others⟩

theorem printed_fields : (fields : List (Text × Json)) → {parts : List (List Char)} →
    renderFields fields = .ok parts → ∀ part ∈ parts, Printed part
  | [], _, rendered => by
    cases rendered
    simp
  | (name, value) :: rest, _, rendered => by
    rw [renderFields] at rendered
    obtain ⟨part, first, rendered⟩ := bind_parts rendered
    obtain ⟨parts, others, rendered⟩ := bind_parts rendered
    cases rendered
    have colon : Printed [':', ' '] := by decide
    have named := printed_append.mpr ⟨colon, printed_render value first⟩
    have field := printed_append.mpr ⟨printed_quoted name, named⟩
    exact List.forall_mem_cons.mpr ⟨field, printed_fields rest others⟩
end

end Json
end InlineProject
