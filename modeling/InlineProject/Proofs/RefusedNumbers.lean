import InlineProject.Proofs.JsonValues
/-!
Numbers that are refused. A text in which all else can be read is refused only for the digits of an integer, where there
are more than the limit; real numbers are of any length.
-/

namespace InlineProject

open InlineProject.Json (Digits numeral_sign decimal?_isAscii)

variable {cs ds rest : List Char} {negative : Bool}

/-! ### Real numbers -/

namespace Real

theorem leadingDigits_append (each : ∀ c ∈ ds, Digit.isAscii c = true)
    (ended : ∀ c ∈ rest.head?, Digit.decimal? c = none) :
    leadingDigits (ds ++ rest) = (ds.map fun c => c.toNat - 48, rest) := by
  induction ds with
  | nil =>
    cases rest with
    | nil => rfl
    | cons c rest =>
      rw [List.nil_append, leadingDigits, ended c rfl]
      rfl
  | cons c ds ih =>
    rw [List.forall_mem_cons] at each
    rw [List.cons_append, leadingDigits, decimal?_isAscii each.1, ih each.2]
    rfl

-- A fraction, an exponent.
def Fraction (cs : List Char) : Prop := cs = [] ∨ ∃ ds, Digits ds ∧ cs = '.' :: ds

def Exponent (cs : List Char) : Prop :=
  cs = [] ∨ ∃ mark sign ds, (mark = 'e' ∨ mark = 'E') ∧ (sign = [] ∨ sign = ['+'] ∨ sign = ['-']) ∧ Digits ds ∧
    cs = mark :: (sign ++ ds)

theorem Fraction.numeral (part : Fraction cs) : Numeral cs := by
  rcases part with rfl | ⟨ds, digits, rfl⟩
  · exact List.forall_mem_nil _
  · exact List.forall_mem_cons.mpr ⟨by decide, digits.numeral⟩

theorem Exponent.numeral (exponent : Exponent cs) : Numeral cs := by
  rcases exponent with rfl | ⟨mark, sign, ds, marked, signed, digits, rfl⟩
  · exact List.forall_mem_nil _
  · have letter : isNumeral mark = true := by
      rcases marked with rfl | rfl <;> decide
    have front : Numeral sign := by
      rcases signed with rfl | rfl | rfl <;> decide
    exact List.forall_mem_cons.mpr ⟨letter, front.append digits.numeral⟩

theorem Exponent.ended (exponent : Exponent cs) : ∀ c ∈ cs.head?, Digit.decimal? c = none ∧ c ≠ '.' := by
  rcases exponent with rfl | ⟨mark, sign, ds, marked, _, _, rfl⟩
  · intro c first
    cases first
  · intro c first
    obtain rfl : mark = c := Option.some.inj first
    rcases marked with rfl | rfl <;> decide

theorem Exponent.read (exponent : Exponent cs) : ∃ power, exponent? cs = some power := by
  rcases exponent with rfl | ⟨mark, sign, ds, marked, signed, digits, rfl⟩
  · exact ⟨0, rfl⟩
  · have whole : ∃ negative, Integer.splitSign (sign ++ ds) = (negative, ds) := by
      rcases signed with rfl | rfl | rfl
      · have split := @Digits.splitSign [] ds digits
        rw [List.append_nil] at split
        exact ⟨false, split⟩
      · exact ⟨false, rfl⟩
      · exact ⟨true, rfl⟩
    obtain ⟨negative, split⟩ := whole
    have values : leadingDigits (ds ++ []) = _ := leadingDigits_append digits.each fun c first => by cases first
    rw [List.append_nil] at values
    have letter : (mark = 'e' || mark = 'E') = true := by
      rcases marked with rfl | rfl <;> decide
    unfold exponent?
    dsimp only
    rw [if_pos letter, split]
    dsimp only
    rw [values]
    obtain ⟨some, _⟩ := digits
    cases ds with
    | nil => exact absurd rfl some
    | cons c ds => exact ⟨_, rfl⟩

theorem Fraction.read (part : Fraction cs) (ended : ∀ c ∈ rest.head?, Digit.decimal? c = none ∧ c ≠ '.') :
    ∃ values, fraction (cs ++ rest) = (values, rest) := by
  rcases part with rfl | ⟨ds, digits, rfl⟩
  · refine ⟨[], ?_⟩
    cases rest with
    | nil => rfl
    | cons c rest =>
      rw [List.nil_append, fraction]
      exact fun _ same => (ended c rfl).2 (List.cons.inj same).1
  · exact ⟨_, leadingDigits_append digits.each fun c first => (ended c first).1⟩

-- A decimal is read whatever its length.
theorem read_decimal {part power : List Char} (digits : Digits ds) (point : Fraction part) (exponent : Exponent power) :
    ∃ x, Real.read (Text.ofChars ((if negative then ['-'] else []) ++ ds ++ part ++ power)) = .ok x := by
  have stop : ∀ c ∈ (part ++ power).head?, Digit.decimal? c = none := by
    rcases point with rfl | ⟨_, _, rfl⟩
    · exact fun c first => (exponent.ended c first).1
    · intro c first
      obtain rfl : '.' = c := Option.some.inj first
      decide
  obtain ⟨raised, power_⟩ := exponent.read
  obtain ⟨values, part_⟩ := point.read exponent.ended
  have decimal : ∃ x, decimal? negative (ds ++ (part ++ power)) = some x := by
    unfold decimal?
    rw [leadingDigits_append digits.each stop]
    dsimp only
    rw [part_]
    dsimp only
    rw [power_]
    obtain ⟨some, _⟩ := digits
    cases ds with
    | nil => exact absurd rfl some
    | cons c ds => exact ⟨_, rfl⟩
  obtain ⟨x, decimal⟩ := decimal
  have signed : Numeral ((if negative then ['-'] else []) ++ ds ++ part ++ power) :=
    ((numeral_sign.append digits.numeral).append point.numeral).append exponent.numeral
  unfold Real.read
  rw [Json.toCharsLossy_ofChars, Json.trimPadding_numeral signed, List.append_assoc, List.append_assoc,
    digits.splitSign_signed]
  dsimp only
  rw [decimal]
  cases word? negative (ds ++ (part ++ power)) with
  | none => exact ⟨x, rfl⟩
  | some y => exact ⟨y, rfl⟩

end Real

/-! ### Values -/

namespace Json

variable {j : Json} {e : NumberError} {t : Text}

-- The digits of an integer beyond the limit.
def Oversized (cs : List Char) (e : NumberError) : Prop :=
  ∃ ds, Digits ds ∧ ds <:+: cs ∧ NumberError.digitLimit < ds.length ∧ e = .tooManyDigits ds.length

theorem Oversized.within (oversized : Oversized cs e) (inside : cs <:+: rest) : Oversized rest e := by
  obtain ⟨ds, digits, there, long, same⟩ := oversized
  exact ⟨ds, digits, there.trans inside, long, same⟩

theorem takeWhile_digits (some : (cs.takeWhile Digit.isAscii).isEmpty = false) : Digits (cs.takeWhile Digit.isAscii) :=
  ⟨List.isEmpty_eq_false_iff.mp some, fun _ member => List.mem_takeWhile_imp member⟩

theorem wholePart_digits_of_some (some : (wholePart cs).isEmpty = false) : Digits (wholePart cs) := by
  unfold wholePart at some ⊢
  split
  · exact ⟨List.cons_ne_nil _ _, List.forall_mem_singleton.mpr rfl⟩
  · rename_i other
    split at some
    · exact (other _ rfl).elim
    · exact takeWhile_digits some

theorem splitFraction_fraction : Real.Fraction (splitFraction cs).1 := by
  unfold splitFraction
  split
  · dsimp only
    split
    · exact .inl rfl
    · rename_i some
      exact .inr ⟨_, takeWhile_digits (Bool.eq_false_iff.mpr some), rfl⟩
  · exact .inl rfl

theorem splitExponent_exponent : Real.Exponent (splitExponent cs).1 := by
  cases cs with
  | nil => exact .inl rfl
  | cons c cs =>
    by_cases marked : (c = 'e' || c = 'E') = true
    · rw [splitExponent_marked marked]
      split
      · exact .inl rfl
      · rename_i some
        rw [Bool.or_eq_true, decide_eq_true_eq, decide_eq_true_eq] at marked
        have signed : (exponentSign cs).1 = [] ∨ (exponentSign cs).1 = ['+'] ∨ (exponentSign cs).1 = ['-'] := by
          unfold exponentSign
          split
          · exact .inr (.inl rfl)
          · exact .inr (.inr rfl)
          · exact .inl rfl
        exact .inr ⟨c, _, _, marked, signed, takeWhile_digits (Bool.eq_false_iff.mpr some), List.cons_append⟩
    · rw [splitExponent_unmarked marked]
      exact .inl rfl

theorem asNumber_error {α : Type} {meant : α → Json} {r : Except NumberError α}
    (refused : asNumber meant rest r = .error (.number e)) : r = .error e := by
  cases r with
  | error f =>
    cases refused
    rfl
  | ok x => cases refused

-- Only integers are refused, and only for their length.
theorem magnitude_oversized (refused : magnitude negative cs = .error (.number e)) : Oversized cs e := by
  rw [magnitude_eq] at refused
  split at refused
  · cases refused
  · rename_i some
    have digits := wholePart_digits_of_some (Bool.eq_false_iff.mpr some)
    unfold numberOf at refused
    dsimp only at refused
    split at refused
    · rename_i integral
      rw [Bool.and_eq_true, List.isEmpty_iff, List.isEmpty_iff] at integral
      rw [integral.1, integral.2, List.append_nil, List.append_nil] at refused
      have read := asNumber_error refused
      rw [digits.read] at read
      split at read
      · rename_i long
        cases read
        exact ⟨wholePart cs, digits, wholePart_prefix.isInfix, long, rfl⟩
      · cases read
    · obtain ⟨x, read⟩ := Real.read_decimal digits splitFraction_fraction splitExponent_exponent
      rw [read] at refused
      cases refused

theorem atom_oversized (refused : atom cs = .error (.number e)) : Oversized cs e := by
  cases found : word? cs with
  | some word =>
    rw [atom_word found] at refused
    cases refused
  | none =>
    rw [atom_number found] at refused
    unfold number at refused
    split at refused
    · exact (magnitude_oversized refused).within (List.suffix_cons _ _).isInfix
    · exact magnitude_oversized refused

/-! ### Texts -/

theorem bound_error {α β : Type} {first : Except ReadError α} {f : α → Except ReadError β} {e : ReadError}
    (refused : (first >>= f) = .error e) : first = .error e ∨ ∃ a, first = .ok a ∧ f a = .error e := by
  cases first with
  | error e' => exact .inl (by cases refused; rfl)
  | ok a => exact .inr ⟨a, rfl, refused⟩

theorem fourHex?_suffix {n : Nat} (read : fourHex? cs = some (n, rest)) : rest <:+ cs := by
  unfold fourHex? at read
  dsimp only at read
  split at read
  · cases read
    exact List.drop_suffix _ _
  · cases read

theorem unicodeEscape?_suffix {p : CodePoint} (read : unicodeEscape? cs = some (p, rest)) : rest <:+ cs := by
  cases number : fourHex? cs with
  | none =>
    unfold unicodeEscape? at read
    rw [number] at read
    cases read
  | some pair =>
    obtain ⟨n, behind⟩ := pair
    have first := fourHex?_suffix number
    by_cases paired : isHighHalf n = true ∧ OpensLow behind
    · obtain ⟨isHigh, more, low, after, rfl, next, isLow⟩ := paired
      rw [unicodeEscape?_pair number next isHigh isLow] at read
      obtain ⟨q, _, same⟩ := Option.map_eq_some_iff.mp read
      cases same
      exact (fourHex?_suffix next).trans ((List.suffix_append ['\\', 'u'] _).trans first)
    · rw [unicodeEscape?_alone number paired] at read
      obtain ⟨q, _, same⟩ := Option.map_eq_some_iff.mp read
      cases same
      exact first

theorem textFrom_suffix {fuel : Nat} (read : textFrom fuel cs = .ok (t, rest)) : rest <:+ cs := by
  fun_induction textFrom fuel cs generalizing t rest with
  | case1 => cases read
  | case2 => cases read
  | case3 =>
    cases read
    exact List.suffix_cons _ _
  | case4 fuel cs p behind escape ih =>
    obtain ⟨more, rfl, inner⟩ := prepended_parts read
    exact (ih inner).trans ((unicodeEscape?_suffix escape).trans (List.suffix_append ['\\', 'u'] _))
  | case5 => cases read
  | case6 => cases read
  | case7 fuel e behind other c simple ih =>
    obtain ⟨more, rfl, inner⟩ := prepended_parts read
    exact (ih inner).trans (List.suffix_append ['\\', e] _)
  | case8 => cases read
  | case9 => cases read
  | case10 fuel c behind _ _ _ _ _ ih =>
    obtain ⟨more, rfl, inner⟩ := prepended_parts read
    exact (ih inner).trans (List.suffix_cons _ _)

theorem prepended_error {fuel : Nat} {p : CodePoint} {e : ReadError}
    (refused : (do let (t, rest) ← textFrom fuel cs; return (p :: t, rest)) = .error e) :
    textFrom fuel cs = .error e := by
  rcases bound_error refused with first | ⟨_, _, ended⟩
  · exact first
  · cases ended

theorem textFrom_malformed {fuel : Nat} {e : ReadError} (refused : textFrom fuel cs = .error e) : e = .malformed := by
  fun_induction textFrom fuel cs with
  | case1 | case2 | case5 | case6 | case8 | case9 =>
    cases refused
    rfl
  | case3 => cases refused
  | case4 _ _ _ _ _ ih => exact ih (prepended_error refused)
  | case7 _ _ _ _ _ _ ih => exact ih (prepended_error refused)
  | case10 _ _ _ _ _ _ _ _ ih => exact ih (prepended_error refused)

/-! ### Lists and objects -/

theorem skipSpaces_suffix : skipSpaces cs <:+ cs := List.dropWhile_suffix _

-- What each of the three readers leaves, from what the others leave with less fuel.
section Readers

variable {fuel : Nat}
  (single : ∀ {cs rest j}, value fuel cs = .ok (j, rest) → rest <:+ cs)
  (many : ∀ {cs rest js}, items fuel cs = .ok (js, rest) → rest <:+ cs)
  (named : ∀ {cs rest pairs}, fields fuel cs = .ok (pairs, rest) → rest <:+ cs)

include many named in
theorem value_suffix (read : value (fuel + 1) cs = .ok (j, rest)) : rest <:+ cs := by
  unfold value at read
  split at read
  · obtain ⟨⟨t, behind⟩, inner, ended⟩ := bound_parts read
    cases ended
    exact (textFrom_suffix inner).trans (List.suffix_cons _ _)
  · rename_i behind
    have spaces : skipSpaces behind <:+ '[' :: behind := skipSpaces_suffix.trans (List.suffix_cons _ _)
    split at read
    · rename_i closing
      cases read
      rw [closing] at spaces
      exact (List.suffix_cons _ _).trans spaces
    · obtain ⟨⟨js, last⟩, inner, ended⟩ := bound_parts read
      cases ended
      exact (many inner).trans spaces
  · rename_i behind
    have spaces : skipSpaces behind <:+ '\x7b' :: behind := skipSpaces_suffix.trans (List.suffix_cons _ _)
    split at read
    · rename_i closing
      cases read
      rw [closing] at spaces
      exact (List.suffix_cons _ _).trans spaces
    · obtain ⟨⟨pairs, last⟩, inner, ended⟩ := bound_parts read
      cases ended
      exact (named inner).trans spaces
  · exact atom_suffix read

include single many in
theorem items_suffix {js : List Json} (read : items (fuel + 1) cs = .ok (js, rest)) : rest <:+ cs := by
  unfold items at read
  obtain ⟨⟨first, behind⟩, inner, ended⟩ := bound_parts read
  have left := skipSpaces_suffix.trans (single inner)
  dsimp only at ended
  split at ended
  · rename_i closing
    cases ended
    rw [closing] at left
    exact (List.suffix_cons _ _).trans left
  · rename_i separated
    obtain ⟨⟨others, last⟩, later, ended⟩ := bound_parts ended
    cases ended
    rw [separated] at left
    exact (many later).trans (skipSpaces_suffix.trans ((List.suffix_cons _ _).trans left))
  · cases ended

include single named in
theorem fields_suffix {pairs : List (Text × Json)} (read : fields (fuel + 1) cs = .ok (pairs, rest)) :
    rest <:+ cs := by
  unfold fields at read
  split at read
  · obtain ⟨⟨name, behind⟩, inner, ended⟩ := bound_parts read
    have left := skipSpaces_suffix.trans ((textFrom_suffix inner).trans (List.suffix_cons '\x22' _))
    dsimp only at ended
    split at ended
    · rename_i colon
      rw [colon] at left
      obtain ⟨⟨first, behind⟩, inner, ended⟩ := bound_parts ended
      have left := (skipSpaces_suffix.trans (single inner)).trans
        (skipSpaces_suffix.trans ((List.suffix_cons _ _).trans left))
      dsimp only at ended
      split at ended
      · rename_i closing
        cases ended
        rw [closing] at left
        exact (List.suffix_cons _ _).trans left
      · rename_i separated
        obtain ⟨⟨others, last⟩, later, ended⟩ := bound_parts ended
        cases ended
        rw [separated] at left
        exact (named later).trans (skipSpaces_suffix.trans ((List.suffix_cons _ _).trans left))
      · cases ended
    · cases ended
  · cases read

end Readers

-- The induction is on the fuel that the three readers share.
theorem reads_suffix (fuel : Nat) :
    (∀ {cs rest j}, value fuel cs = .ok (j, rest) → rest <:+ cs) ∧
    (∀ {cs rest js}, items fuel cs = .ok (js, rest) → rest <:+ cs) ∧
    (∀ {cs rest pairs}, fields fuel cs = .ok (pairs, rest) → rest <:+ cs) := by
  induction fuel with
  | zero => exact ⟨nofun, nofun, nofun⟩
  | succ fuel ih =>
    obtain ⟨single, many, named⟩ := ih
    exact ⟨value_suffix many named, items_suffix single many, fields_suffix single named⟩

-- The same for what the readers refuse.
section Refusals

variable {fuel : Nat}
  (single : ∀ {cs e}, value fuel cs = .error (.number e) → Oversized cs e)
  (many : ∀ {cs e}, items fuel cs = .error (.number e) → Oversized cs e)
  (named : ∀ {cs e}, fields fuel cs = .error (.number e) → Oversized cs e)

include many named in
theorem value_oversized (refused : value (fuel + 1) cs = .error (.number e)) : Oversized cs e := by
  unfold value at refused
  split at refused
  · rcases bound_error refused with inner | ⟨_, _, ended⟩
    · cases textFrom_malformed inner
    · cases ended
  · split at refused
    · cases refused
    · rcases bound_error refused with inner | ⟨_, _, ended⟩
      · exact (many inner).within (skipSpaces_suffix.trans (List.suffix_cons _ _)).isInfix
      · cases ended
  · split at refused
    · cases refused
    · rcases bound_error refused with inner | ⟨_, _, ended⟩
      · exact (named inner).within (skipSpaces_suffix.trans (List.suffix_cons _ _)).isInfix
      · cases ended
  · exact atom_oversized refused

include single many in
theorem items_oversized (refused : items (fuel + 1) cs = .error (.number e)) : Oversized cs e := by
  unfold items at refused
  rcases bound_error refused with inner | ⟨⟨first, behind⟩, inner, ended⟩
  · exact single inner
  · have left := skipSpaces_suffix.trans ((reads_suffix fuel).1 inner)
    dsimp only at ended
    split at ended
    · cases ended
    · rename_i separated
      rw [separated] at left
      rcases bound_error ended with later | ⟨_, _, ended⟩
      · exact (many later).within (skipSpaces_suffix.trans ((List.suffix_cons _ _).trans left)).isInfix
      · cases ended
    · cases ended

include single named in
theorem fields_oversized (refused : fields (fuel + 1) cs = .error (.number e)) : Oversized cs e := by
  unfold fields at refused
  split at refused
  · rcases bound_error refused with inner | ⟨⟨name, behind⟩, inner, ended⟩
    · cases textFrom_malformed inner
    · have left := skipSpaces_suffix.trans ((textFrom_suffix inner).trans (List.suffix_cons '\x22' _))
      dsimp only at ended
      split at ended
      · rename_i colon
        rw [colon] at left
        have left := skipSpaces_suffix.trans ((List.suffix_cons _ _).trans left)
        rcases bound_error ended with inner | ⟨⟨first, behind⟩, inner, ended⟩
        · exact (single inner).within left.isInfix
        · have left := (skipSpaces_suffix.trans ((reads_suffix fuel).1 inner)).trans left
          dsimp only at ended
          split at ended
          · cases ended
          · rename_i separated
            rw [separated] at left
            rcases bound_error ended with later | ⟨_, _, ended⟩
            · exact (named later).within (skipSpaces_suffix.trans ((List.suffix_cons _ _).trans left)).isInfix
            · cases ended
          · cases ended
      · cases ended
  · cases refused

end Refusals

theorem reads_oversized (fuel : Nat) :
    (∀ {cs e}, value fuel cs = .error (.number e) → Oversized cs e) ∧
    (∀ {cs e}, items fuel cs = .error (.number e) → Oversized cs e) ∧
    (∀ {cs e}, fields fuel cs = .error (.number e) → Oversized cs e) := by
  induction fuel with
  | zero => exact ⟨nofun, nofun, nofun⟩
  | succ fuel ih =>
    obtain ⟨single, many, named⟩ := ih
    exact ⟨value_oversized many named, items_oversized single many, fields_oversized single named⟩

theorem read_oversized (refused : Json.read cs = .error (.number e)) : Oversized cs e := by
  unfold Json.read at refused
  rcases bound_error refused with inner | ⟨⟨whole, behind⟩, _, ended⟩
  · exact ((reads_oversized _).1 inner).within skipSpaces_suffix.isInfix
  · dsimp only at ended
    split at ended <;> cases ended

end Json
end InlineProject
