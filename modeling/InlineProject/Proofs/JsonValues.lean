import InlineProject.Proofs.JsonRecords
import InlineProject.Proofs.PrintedData
/-!
Values on one line. A number or a word is read as by itself wherever it stands, and of integers, lists and objects
what was written is read again.
-/

namespace InlineProject.Json

variable {cs rest left : List Char} {negative : Bool} {j : Json}

/-! ### Numbers among other things -/

-- No character that can go on a number stands in front.
def Quiet (rest : List Char) : Prop :=
  ∀ c ∈ rest.head?, isNumeral c = false

theorem Ended.quiet (ended : Ended rest) : Quiet rest := by
  intro c front
  have apart := ended c front
  simp only [List.mem_cons, List.not_mem_nil, or_false] at apart
  rcases apart with rfl | rfl | rfl | rfl <;> decide

theorem isNumeral_of_isAscii {c : Char} (digit : Digit.isAscii c = true) : isNumeral c = true := by
  have isDigit : c.isDigit = true := by
    simp only [Digit.isAscii, Char.isDigit, Bool.and_eq_true, decide_eq_true_eq, ge_iff_le,
      UInt32.le_iff_toNat_le] at digit ⊢
    exact digit
  simp [isNumeral, Char.isAlphanum, isDigit]

theorem Quiet.takeWhile (quiet : Quiet rest) :
    (cs ++ rest).takeWhile Digit.isAscii = cs.takeWhile Digit.isAscii := by
  have none : rest.takeWhile Digit.isAscii = [] := by
    cases rest with
    | nil => rfl
    | cons c more =>
      refine List.takeWhile_cons_of_neg fun digit => ?_
      exact Bool.false_ne_true ((quiet c rfl).symm.trans (isNumeral_of_isAscii digit))
  rw [List.takeWhile_append, none, List.append_nil]
  split
  · rename_i whole
    exact ((List.takeWhile_prefix _).eq_of_length whole).symm
  · rfl

theorem drop_takeWhile_append {p : Char → Bool} :
    (cs ++ rest).drop (cs.takeWhile p).length = cs.drop (cs.takeWhile p).length ++ rest :=
  List.drop_append_of_le_length (List.takeWhile_prefix p).length_le

theorem splitFraction_append (quiet : Quiet rest) :
    splitFraction (cs ++ rest) = ((splitFraction cs).1, (splitFraction cs).2 ++ rest) := by
  have start : splitFraction rest = ([], rest) := by
    unfold splitFraction
    split
    · exact absurd (quiet '.' rfl) (by decide)
    · rfl
  cases cs with
  | nil => rw [List.nil_append, start]; rfl
  | cons c cs =>
    by_cases point : c = '.'
    · subst point
      rw [List.cons_append, splitFraction, splitFraction, quiet.takeWhile]
      split
      · rfl
      · rw [drop_takeWhile_append]
    · rw [List.cons_append, splitFraction, splitFraction]
      · rfl
      · exact fun _ same => point (List.cons.inj same).1
      · exact fun _ same => point (List.cons.inj same).1

-- The sign of an exponent, if there is one, and the rest.
def exponentSign : List Char → List Char × List Char
  | '+' :: more => (['+'], more)
  | '-' :: more => (['-'], more)
  | more => ([], more)

theorem splitExponent_marked {mark : Char} (marked : (mark = 'e' || mark = 'E') = true) :
    splitExponent (mark :: cs)
      = if ((exponentSign cs).2.takeWhile Digit.isAscii).isEmpty then ([], mark :: cs)
        else (mark :: (exponentSign cs).1 ++ (exponentSign cs).2.takeWhile Digit.isAscii,
          (exponentSign cs).2.drop ((exponentSign cs).2.takeWhile Digit.isAscii).length) := by
  unfold splitExponent
  dsimp only
  rw [if_pos marked]
  rfl

theorem splitExponent_unmarked {c : Char} (unmarked : ¬(c = 'e' || c = 'E') = true) :
    splitExponent (c :: cs) = ([], c :: cs) := by
  unfold splitExponent
  dsimp only
  rw [if_neg unmarked]

theorem exponentSign_append (quiet : Quiet rest) :
    exponentSign (cs ++ rest) = ((exponentSign cs).1, (exponentSign cs).2 ++ rest) := by
  have start : exponentSign rest = ([], rest) := by
    unfold exponentSign
    split
    · exact absurd (quiet '+' rfl) (by decide)
    · exact absurd (quiet '-' rfl) (by decide)
    · rfl
  cases cs with
  | nil => rw [List.nil_append, start]; rfl
  | cons c cs =>
    by_cases plus : c = '+'
    · subst plus
      rfl
    · by_cases minus : c = '-'
      · subst minus
        rfl
      · rw [List.cons_append, exponentSign, exponentSign]
        · rfl
        · exact fun _ same => plus (List.cons.inj same).1
        · exact fun _ same => minus (List.cons.inj same).1
        · exact fun _ same => plus (List.cons.inj same).1
        · exact fun _ same => minus (List.cons.inj same).1

theorem splitExponent_append (quiet : Quiet rest) :
    splitExponent (cs ++ rest) = ((splitExponent cs).1, (splitExponent cs).2 ++ rest) := by
  cases cs with
  | nil =>
    cases rest with
    | nil => rfl
    | cons c more =>
      have unmarked : ¬(c = 'e' || c = 'E') = true := by
        intro marked
        have apart := quiet c rfl
        simp only [Bool.or_eq_true, decide_eq_true_eq] at marked
        rcases marked with rfl | rfl <;> exact absurd apart (by decide)
      exact splitExponent_unmarked unmarked
  | cons c cs =>
    by_cases marked : (c = 'e' || c = 'E') = true
    · rw [List.cons_append, splitExponent_marked marked, splitExponent_marked marked, exponentSign_append quiet,
        quiet.takeWhile]
      split
      · rfl
      · dsimp only
        rw [drop_takeWhile_append]
    · rw [List.cons_append, splitExponent_unmarked marked, splitExponent_unmarked marked]
      rfl

-- The digits of a number before its point; a zero in front stands alone.
def wholePart (cs : List Char) : List Char :=
  match cs with
  | '0' :: _ => ['0']
  | _ => cs.takeWhile Digit.isAscii

theorem wholePart_prefix : wholePart cs <+: cs := by
  unfold wholePart
  split
  · exact ⟨_, rfl⟩
  · exact List.takeWhile_prefix _

theorem wholePart_append (some : cs ≠ []) (quiet : Quiet rest) : wholePart (cs ++ rest) = wholePart cs := by
  cases cs with
  | nil => exact absurd rfl some
  | cons c cs =>
    by_cases zero : c = '0'
    · subst zero
      rfl
    · have other (cs : List Char) : wholePart (c :: cs) = (c :: cs).takeWhile Digit.isAscii := by
        rw [wholePart]
        exact fun _ same => zero (List.cons.inj same).1
      rw [List.cons_append, other, other, ← List.cons_append, quiet.takeWhile]

-- A number that was read, and what is left.
def asNumber {α : Type} (meant : α → Json) (rest : List Char) : Except NumberError α → Except ReadError (Json × List Char)
  | .ok x => .ok (meant x, rest)
  | .error e => .error (.number e)

-- What is made of the parts of a number.
def numberOf (negative : Bool) (whole fraction exponent rest : List Char) : Except ReadError (Json × List Char) :=
  let signed := Text.ofChars ((if negative then ['-'] else []) ++ whole ++ fraction ++ exponent)
  if fraction.isEmpty && exponent.isEmpty then asNumber .int rest (Integer.read 10 signed)
  else asNumber .real rest (Real.read signed)

theorem magnitude_eq : magnitude negative cs =
    if (wholePart cs).isEmpty then .error .malformed
    else numberOf negative (wholePart cs) (splitFraction (cs.drop (wholePart cs).length)).1
      (splitExponent (splitFraction (cs.drop (wholePart cs).length)).2).1
      (splitExponent (splitFraction (cs.drop (wholePart cs).length)).2).2 := by
  unfold magnitude
  extract_lets whole
  have same : wholePart cs = whole := rfl
  rw [same]
  clear_value whole
  unfold numberOf
  dsimp only
  split
  · rfl
  · split
    · generalize Integer.read 10 _ = e
      cases e <;> rfl
    · generalize Real.read _ = e
      cases e <;> rfl

theorem asNumber_parts {α : Type} {meant : α → Json} {e : Except NumberError α}
    (read : asNumber meant rest e = .ok (j, left)) : left = rest ∧ ∀ other, asNumber meant other e = .ok (j, other) := by
  cases e with
  | error => cases read
  | ok x =>
    cases read
    exact ⟨rfl, fun _ => rfl⟩

theorem numberOf_parts {whole fraction exponent : List Char}
    (read : numberOf negative whole fraction exponent rest = .ok (j, left)) :
    left = rest ∧ ∀ other, numberOf negative whole fraction exponent other = .ok (j, other) := by
  unfold numberOf at read ⊢
  dsimp only at read ⊢
  split at read
  · rename_i integral
    simp only [if_pos integral]
    exact asNumber_parts read
  · rename_i broken
    simp only [if_neg broken]
    exact asNumber_parts read

theorem magnitude_append (quiet : Quiet rest) (read : magnitude negative cs = .ok (j, left)) :
    magnitude negative (cs ++ rest) = .ok (j, left ++ rest) := by
  have some : cs ≠ [] := by
    rintro rfl
    cases read
  rw [magnitude_eq] at read ⊢
  rw [wholePart_append some quiet, List.drop_append_of_le_length wholePart_prefix.length_le, splitFraction_append quiet]
  dsimp only
  rw [splitExponent_append quiet]
  split at read
  · cases read
  · rename_i filled
    obtain ⟨rfl, others⟩ := numberOf_parts read
    rw [if_neg filled]
    exact others _

theorem prefix_append {word : List Char} (numeral : Numeral word) (quiet : Quiet rest) :
    word <+: cs ++ rest ↔ word <+: cs := by
  refine ⟨fun within => ?_, fun within => within.trans (List.prefix_append _ _)⟩
  rcases List.prefix_or_prefix_of_prefix within (List.prefix_append cs rest) with inside | ⟨beyond, rfl⟩
  · exact inside
  · cases beyond with
    | nil => rw [List.append_nil]
    | cons c beyond =>
      obtain ⟨more, rfl⟩ := (List.prefix_append_right_inj cs).mp within
      have apart := quiet c rfl
      have letter := numeral c (by simp)
      rw [letter] at apart
      cases apart

theorem words_numeral : ∀ word ∈ words, Numeral word.1.toList := by
  intro word member
  simp only [words, List.mem_cons, List.not_mem_nil, or_false] at member
  rcases member with rfl | rfl | rfl | rfl | rfl | rfl <;> decide

-- The word in front, if there is one.
def word? (cs : List Char) : Option (String × Json) := words.find? fun word => word.1.toList.isPrefixOf cs

-- A number with its sign.
def number (cs : List Char) : Except ReadError (Json × List Char) :=
  match cs with
  | '-' :: rest => magnitude true rest
  | cs => magnitude false cs

theorem atom_word {word : String × Json} (found : word? cs = some word) :
    atom cs = .ok (word.2, cs.drop word.1.length) := by
  unfold atom
  split
  · rename_i found'
    cases found.symm.trans found'
    rfl
  · rename_i none
    cases found.symm.trans none

theorem atom_number (none : word? cs = none) : atom cs = number cs := by
  unfold atom
  split
  · rename_i found
    cases none.symm.trans found
  · rfl

theorem number_unsigned {c : Char} (unsigned : c ≠ '-') : number (c :: cs) = magnitude false (c :: cs) := by
  rw [number]
  exact fun _ same => unsigned (List.cons.inj same).1

theorem word?_append (quiet : Quiet rest) : word? (cs ++ rest) = word? cs := by
  refine List.find?_congr fun word member => ?_
  rw [Bool.eq_iff_iff, List.isPrefixOf_iff_prefix, List.isPrefixOf_iff_prefix]
  exact prefix_append (words_numeral word member) quiet

theorem number_append (quiet : Quiet rest) (read : number cs = .ok (j, left)) :
    number (cs ++ rest) = .ok (j, left ++ rest) := by
  cases cs with
  | nil => cases read
  | cons c cs =>
    by_cases minus : c = '-'
    · subst minus
      exact magnitude_append quiet read
    · rw [number_unsigned minus] at read
      rw [List.cons_append, number_unsigned minus]
      exact magnitude_append quiet read

-- A number or a word is read by itself, whatever comes behind.
theorem atom_append (quiet : Quiet rest) (read : atom cs = .ok (j, left)) :
    atom (cs ++ rest) = .ok (j, left ++ rest) := by
  cases found : word? cs with
  | some word =>
    have front : word.1.toList.isPrefixOf cs = true := by simpa using List.find?_some found
    have within : word.1.toList <+: cs := List.isPrefixOf_iff_prefix.mp front
    rw [atom_word found] at read
    cases read
    rw [atom_word ((word?_append quiet).trans found), ← String.length_toList,
      List.drop_append_of_le_length within.length_le]
  | none =>
    rw [atom_number found] at read
    rw [atom_number ((word?_append quiet).trans found)]
    exact number_append quiet read

theorem value_atom {fuel : Nat} {c : Char} (numeral : isNumeral c = true) :
    value (fuel + 1) (c :: cs) = atom (c :: cs) := by
  rw [value]
  all_goals
    rintro rest same
    cases same
    cases numeral

theorem isSpace_of_isNumeral {c : Char} (numeral : isNumeral c = true) : isSpace c = false := by
  by_contra space
  simp only [isSpace, Bool.not_eq_false, Bool.or_eq_true, beq_iff_eq] at space
  rcases space with ((rfl | rfl) | rfl) | rfl <;> cases numeral

theorem means_atom (numeral : Numeral cs) (read : atom cs = .ok (j, [])) : Means cs j := by
  cases cs with
  | nil => cases read
  | cons c cs =>
    have first := numeral c List.mem_cons_self
    refine ⟨⟨c, cs, rfl, isSpace_of_isNumeral first⟩, fun {fuel rest} enough ended => ?_⟩
    obtain ⟨fuel, rfl⟩ : ∃ less, fuel = less + 1 := ⟨fuel - 1, by
      rw [List.length_cons] at enough
      omega⟩
    rw [List.cons_append, value_atom first, ← List.cons_append]
    exact atom_append ended.quiet read

theorem splitFraction_suffix : (splitFraction cs).2 <:+ cs := by
  unfold splitFraction
  split
  · dsimp only
    split
    · exact List.suffix_rfl
    · exact (List.drop_suffix _ _).trans (List.suffix_cons _ _)
  · exact List.suffix_rfl

theorem splitExponent_suffix : (splitExponent cs).2 <:+ cs := by
  have sign (cs : List Char) : (exponentSign cs).2 <:+ cs := by
    unfold exponentSign
    split
    · exact List.suffix_cons _ _
    · exact List.suffix_cons _ _
    · exact List.suffix_rfl
  cases cs with
  | nil => exact List.suffix_rfl
  | cons c cs =>
    by_cases marked : (c = 'e' || c = 'E') = true
    · rw [splitExponent_marked marked]
      split
      · exact List.suffix_rfl
      · exact ((List.drop_suffix _ _).trans (sign cs)).trans (List.suffix_cons _ _)
    · rw [splitExponent_unmarked marked]

theorem magnitude_suffix (read : magnitude negative cs = .ok (j, left)) : left <:+ cs := by
  rw [magnitude_eq] at read
  split at read
  · cases read
  · obtain ⟨rfl, _⟩ := numberOf_parts read
    exact (splitExponent_suffix.trans splitFraction_suffix).trans (List.drop_suffix _ _)

theorem atom_suffix (read : atom cs = .ok (j, left)) : left <:+ cs := by
  cases found : word? cs with
  | some word =>
    rw [atom_word found] at read
    cases read
    exact List.drop_suffix _ _
  | none =>
    rw [atom_number found] at read
    unfold number at read
    split at read
    · exact (magnitude_suffix read).trans (List.suffix_cons _ _)
    · exact magnitude_suffix read

-- What is read as a whole text is read among other things too.
theorem means_of_read (numeral : Numeral cs) (read : Json.read cs = .ok j) : Means cs j := by
  cases cs with
  | nil => cases read
  | cons c cs =>
    have first := numeral c List.mem_cons_self
    unfold Json.read at read
    rw [skipSpaces_mark (isSpace_of_isNumeral first), value_atom first] at read
    obtain ⟨⟨meaning, left⟩, atomic, read⟩ := bound_parts read
    have inside := (atom_suffix atomic).subset
    cases left with
    | nil =>
      cases read
      exact means_atom numeral atomic
    | cons d left =>
      dsimp only at read
      rw [skipSpaces_mark (isSpace_of_isNumeral (numeral d (inside List.mem_cons_self)))] at read
      cases read

/-! ### Integers -/

theorem decimal?_isAscii {c : Char} (digit : Digit.isAscii c = true) : Digit.decimal? c = some (c.toNat - 48) := by
  simp only [Digit.isAscii, Bool.and_eq_true, decide_eq_true_eq] at digit
  unfold Digit.decimal?
  dsimp only
  rw [if_pos (by omega), if_pos (by simpa using digit)]

theorem value?_isAscii {c : Char} (digit : Digit.isAscii c = true) : Digit.value? c = some (c.toNat - 48) := by
  have decimal := decimal?_isAscii digit
  simp only [Digit.isAscii, Bool.and_eq_true, decide_eq_true_eq] at digit
  unfold Digit.value?
  dsimp only
  rw [if_neg (by simp; omega), if_neg (by simp; omega), decimal]

theorem isAscii_digits {n : Nat} : ∀ c ∈ Nat.toDigits 10 n, Digit.isAscii c = true := by
  intro c member
  have digit := Nat.isDigit_of_mem_toDigits (by decide) (by decide) member
  simp only [Char.isDigit, Digit.isAscii, Bool.and_eq_true, decide_eq_true_eq, ge_iff_le,
    UInt32.le_iff_toNat_le] at digit ⊢
  exact digit

theorem digitsFrom_ascii {afterDigit : Bool} (some : afterDigit = true ∨ cs ≠ [])
    (digits : ∀ c ∈ cs, Digit.isAscii c = true) :
    Integer.digitsFrom 10 afterDigit cs = .some (cs.map fun c => c.toNat - 48) := by
  induction cs generalizing afterDigit with
  | nil =>
    obtain rfl := some.resolve_right fun filled => filled rfl
    rfl
  | cons c cs ih =>
    obtain ⟨first, others⟩ := List.forall_mem_cons.mp digits
    have value := value?_isAscii first
    have bounds : 48 ≤ c.toNat ∧ c.toNat ≤ 57 := by
      simpa only [Digit.isAscii, Bool.and_eq_true, decide_eq_true_eq] using first
    rw [Integer.digitsFrom, value]
    · dsimp only
      rw [if_pos (by omega), ih (.inl rfl) others]
      rfl
    · rintro rfl
      cases first

theorem foldl_digits (n : Nat) :
    ((Nat.toDigits 10 n).map fun c => c.toNat - 48).foldl (fun n digit => n * 10 + digit) 0 = n := by
  have step : (fun (n : Nat) (c : Char) => n * 10 + (c.toNat - 48)) = fun n c => 10 * n + (c.toNat - '0'.toNat) := by
    funext n c
    rw [Nat.mul_comm]
    rfl
  rw [List.foldl_map, step]
  exact Nat.ofDigitChars_toDigits (by decide) (by decide)

theorem isPadding_of_isNumeral {c : Char} (numeral : isNumeral c = true) : Integer.isPadding c = false := by
  have printed := isPrinted_of_isNumeral numeral
  have other : c.toNat ≠ 0x20 := by
    intro space
    rw [show c = ' ' from Char.toNat_inj.mp space] at numeral
    cases numeral
  simp only [isPrinted, Bool.and_eq_true, decide_eq_true_eq] at printed
  simp only [Integer.isPadding, isBlank, Bool.and_eq_false_iff, Bool.or_eq_false_iff, decide_eq_false_iff_not,
    beq_eq_false_iff_ne]
  omega

theorem trimPadding_numeral (numeral : Numeral cs) : Integer.trimPadding cs = cs := by
  have none {cs : List Char} (numeral : Numeral cs) : cs.dropWhile Integer.isPadding = cs := by
    cases cs with
    | nil => rfl
    | cons c cs =>
      refine List.dropWhile_cons_of_neg ?_
      rw [isPadding_of_isNumeral (numeral c List.mem_cons_self)]
      exact Bool.false_ne_true
  unfold Integer.trimPadding
  rw [none numeral, none fun c member => numeral c (List.mem_reverse.mp member), List.reverse_reverse]

theorem toCharsLossy_ofChars : Text.toCharsLossy (Text.ofChars cs) = cs := by
  unfold Text.toCharsLossy Text.ofChars
  rw [List.map_map]
  exact List.map_id _

theorem head_digits {n : Nat} : ∃ c more, Nat.toDigits 10 n = c :: more ∧ Digit.isAscii c = true := by
  obtain ⟨c, more, split⟩ := List.exists_cons_of_ne_nil (@Nat.toDigits_ne_nil n 10)
  exact ⟨c, more, split, isAscii_digits c (split ▸ List.mem_cons_self)⟩

-- Decimal digits, one at least.
structure Digits (ds : List Char) : Prop where
  some : ds ≠ []
  each : ∀ c ∈ ds, Digit.isAscii c = true

theorem digits_toDigits {n : Nat} : Digits (Nat.toDigits 10 n) := ⟨Nat.toDigits_ne_nil, isAscii_digits⟩

section Digits

variable {ds : List Char}

theorem Digits.numeral (digits : Digits ds) : Numeral ds :=
  fun c member => isNumeral_of_isAscii (digits.each c member)

theorem Digits.splitSign (digits : Digits ds) : Integer.splitSign (ds ++ rest) = (false, ds ++ rest) := by
  obtain ⟨some, each⟩ := digits
  cases ds with
  | nil => exact absurd rfl some
  | cons c ds =>
    have first := each c List.mem_cons_self
    rw [List.cons_append, Integer.splitSign]
    all_goals
      rintro _ same
      obtain ⟨rfl, _⟩ := List.cons.inj same
      cases first

theorem Digits.splitSign_signed (digits : Digits ds) :
    Integer.splitSign ((if negative then ['-'] else []) ++ (ds ++ rest)) = (negative, ds ++ rest) := by
  cases negative with
  | true => rfl
  | false => exact digits.splitSign

theorem numeral_sign : Numeral (if negative then ['-'] else []) := by
  cases negative <;> decide

-- An integer is read unless it has too many digits.
theorem Digits.read (digits : Digits ds) :
    Integer.read 10 (Text.ofChars ((if negative then ['-'] else []) ++ ds)) =
      if NumberError.digitLimit < ds.length then .error (.tooManyDigits ds.length)
      else .ok (if negative then -((ds.map fun c => c.toNat - 48).foldl (fun n digit => n * 10 + digit) 0 : Nat)
        else ((ds.map fun c => c.toNat - 48).foldl (fun n digit => n * 10 + digit) 0 : Nat)) := by
  have unmarked : Integer.dropBaseMark 10 ds = ds := by
    unfold Integer.dropBaseMark
    split
    · exact if_neg nofun
    · rfl
  have split := @Digits.splitSign_signed [] negative ds digits
  rw [List.append_nil] at split
  unfold Integer.read
  rw [toCharsLossy_ofChars, trimPadding_numeral (numeral_sign.append digits.numeral), split]
  dsimp only
  rw [unmarked, digitsFrom_ascii (.inr digits.some) digits.each]
  dsimp only
  rw [List.length_map]
  by_cases long : NumberError.digitLimit < ds.length
  · rw [if_pos long, if_pos (by rw [Bool.and_eq_true]; exact ⟨rfl, decide_eq_true long⟩)]
  · rw [if_neg long, if_neg (by rw [Bool.and_eq_true, decide_eq_true_eq]; exact fun both => long both.2)]

end Digits

-- What is written of an integer is read as the integer.
theorem read_digits {n : Nat} (short : (Nat.toDigits 10 n).length ≤ NumberError.digitLimit) :
    Integer.read 10 (Text.ofChars ((if negative then ['-'] else []) ++ Nat.toDigits 10 n))
      = .ok (if negative then -(n : Int) else n) := by
  rw [digits_toDigits.read, if_neg (Nat.not_lt.mpr short), foldl_digits]

-- A number has a zero in front only if it is zero.
theorem digits_zero {n : Nat} {more : List Char} (front : Nat.toDigits 10 n = '0' :: more) : more = [] := by
  induction n using Nat.strong_induction_on generalizing more with
  | _ n ih =>
    rw [Nat.toDigits_eq_if (by decide)] at front
    split at front
    · exact (List.cons.inj front).2.symm
    · rename_i large
      obtain ⟨c, others, split, _⟩ := @head_digits (n / 10)
      rw [split, List.cons_append] at front
      obtain ⟨rfl, _⟩ := List.cons.inj front
      have value := foldl_digits (n / 10)
      rw [ih (n / 10) (Nat.div_lt_self (by omega) (by decide)) split] at split
      rw [split] at value
      have none : n / 10 = 0 := value.symm
      omega

theorem wholePart_digits {n : Nat} : wholePart (Nat.toDigits 10 n) = Nat.toDigits 10 n := by
  unfold wholePart
  split
  · rename_i more front
    rw [front, digits_zero front]
  · exact List.takeWhile_eq_self_iff.mpr isAscii_digits

theorem magnitude_digits {n : Nat} (short : (Nat.toDigits 10 n).length ≤ NumberError.digitLimit) :
    magnitude negative (Nat.toDigits 10 n) = .ok (.int (if negative then -(n : Int) else n), []) := by
  have empty : (Nat.toDigits 10 n).isEmpty = false := List.isEmpty_eq_false_iff.mpr Nat.toDigits_ne_nil
  rw [magnitude_eq, wholePart_digits, empty, List.drop_length, if_neg Bool.false_ne_true]
  have nothing : splitExponent (splitFraction []).2 = ([], []) := rfl
  rw [nothing]
  unfold numberOf
  dsimp only [splitFraction]
  rw [List.append_nil, List.append_nil, read_digits short]
  rfl

theorem words_front : ∀ word ∈ words, ∃ c more, word.1.toList = c :: more ∧ Digit.isAscii c = false ∧
    (c = '-' → ∃ d others, more = d :: others ∧ Digit.isAscii d = false) := by
  have other {c : Char} {p : Prop} (different : c ≠ '-') : c = '-' → p := fun same => absurd same different
  intro word member
  simp only [words, List.mem_cons, List.not_mem_nil, or_false] at member
  rcases member with rfl | rfl | rfl | rfl | rfl | rfl
  · exact ⟨'n', _, rfl, rfl, other (by decide)⟩
  · exact ⟨'t', _, rfl, rfl, other (by decide)⟩
  · exact ⟨'f', _, rfl, rfl, other (by decide)⟩
  · exact ⟨'N', _, rfl, rfl, other (by decide)⟩
  · exact ⟨'I', _, rfl, rfl, other (by decide)⟩
  · exact ⟨'-', _, rfl, rfl, fun _ => ⟨'I', _, rfl, rfl⟩⟩

-- No word is in front of digits.
theorem word?_digits {n : Nat} : word? ((if negative then ['-'] else []) ++ Nat.toDigits 10 n) = none := by
  obtain ⟨e, others, split, digit⟩ := @head_digits n
  refine List.find?_eq_none.mpr fun word member front => ?_
  obtain ⟨c, more, spelled, letter, behind⟩ := words_front word member
  have front := List.isPrefixOf_iff_prefix.mp front
  rw [spelled, split] at front
  cases negative with
  | false =>
    obtain ⟨rfl, _⟩ := List.cons_prefix_cons.mp front
    cases letter.symm.trans digit
  | true =>
    obtain ⟨minus, front⟩ := List.cons_prefix_cons.mp front
    obtain ⟨d, _, rfl, letter⟩ := behind minus
    obtain ⟨rfl, _⟩ := List.cons_prefix_cons.mp front
    cases letter.symm.trans digit

theorem atom_int {i : Int} (short : Integer.Short i) : atom (toString i).toList = .ok (.int i, []) := by
  have written : (toString i).toList = (if decide (i < 0) then ['-'] else []) ++ Nat.toDigits 10 i.natAbs := by
    rw [toString_int]
    by_cases negative : i < 0
    · rw [if_pos negative, if_pos (by simpa using negative)]
      rfl
    · rw [if_neg negative, if_neg (by simpa using negative)]
      rfl
  have value : (if decide (i < 0) = true then -(i.natAbs : Int) else i.natAbs) = i := by
    split
    · rename_i negative
      have negative : i < 0 := by simpa using negative
      omega
    · rename_i positive
      have positive : ¬i < 0 := by simpa using positive
      omega
  have found := @magnitude_digits (decide (i < 0)) i.natAbs short
  rw [value] at found
  rw [written, atom_number word?_digits]
  generalize decide (i < 0) = negative at found ⊢
  cases negative with
  | true => exact found
  | false =>
    obtain ⟨c, more, split, digit⟩ := @head_digits i.natAbs
    rw [if_neg Bool.false_ne_true, List.nil_append]
    rw [split] at found ⊢
    rw [number_unsigned]
    · exact found
    · rintro rfl
      cases digit

theorem means_int {i : Int} (short : Integer.Short i) : Means (toString i).toList (.int i) :=
  means_atom (numeral_int i) (atom_int short)

/-! ### Lists and objects -/

section Collections

variable {part : List Char} {parts : List (List Char)} {js : List Json}

theorem separated_more {next : List Char} :
    separated (part :: next :: parts) = part ++ ',' :: ' ' :: separated (next :: parts) := by
  unfold separated
  rw [List.intercalate_cons_cons, List.append_assoc]
  rfl

-- No value begins with the end of a list.
theorem Means.opens (means : Means cs j) : ∃ c more, cs = c :: more ∧ isSpace c = false ∧ c ≠ ']' := by
  obtain ⟨c, more, rfl, mark⟩ := means.starts
  refine ⟨c, more, rfl, mark, ?_⟩
  rintro rfl
  have reads := @Means.reads _ _ means _ [] (Nat.le_refl _) nofun
  cases reads

theorem separated_front (means : Means part j) :
    ∃ c more, separated (part :: parts) = c :: more ∧ isSpace c = false ∧ c ≠ ']' := by
  obtain ⟨c, more, rfl, mark, other⟩ := means.opens
  cases parts with
  | nil => exact ⟨c, more, List.intercalate_singleton, mark, other⟩
  | cons next parts => exact ⟨c, _, separated_more, mark, other⟩

theorem items_single {fuel : Nat} (means : Means part j) (enough : part.length ≤ fuel) :
    items (fuel + 1) (part ++ ']' :: rest) = .ok ([j], rest) := by
  have ended : Ended (']' :: rest) := by
    rintro c ⟨⟩
    decide
  rw [items, means.reads enough ended]
  rfl

theorem items_more {fuel : Nat} (means : Means part j) (enough : part.length ≤ fuel) {behind : List Char}
    (later : items fuel (skipSpaces behind) = .ok (js, rest)) :
    items (fuel + 1) (part ++ ',' :: behind) = .ok (j :: js, rest) := by
  have ended : Ended (',' :: behind) := by
    rintro c ⟨⟩
    decide
  rw [items, means.reads enough ended]
  change (items fuel (skipSpaces behind) >>= fun found => pure (j :: found.1, found.2)) = _
  rw [later]
  rfl

-- The induction is on the items; a comma and a space stand before every one but the first.
theorem items_separated {fuel : Nat} (each : List.Forall₂ Means (part :: parts) (j :: js))
    (enough : (separated (part :: parts)).length < fuel) :
    items fuel (separated (part :: parts) ++ ']' :: rest) = .ok (j :: js, rest) := by
  obtain ⟨fuel, rfl⟩ : ∃ less, fuel = less + 1 := ⟨fuel - 1, by omega⟩
  induction parts generalizing part j js fuel with
  | nil =>
    cases each with
    | cons first others =>
      cases others
      unfold separated at enough ⊢
      rw [List.intercalate_singleton] at enough ⊢
      exact items_single first (by omega)
  | cons next parts ih =>
    cases each with
    | @cons _ _ _ _ first others =>
      cases others with
      | @cons _ k _ ks second others =>
        rw [separated_more] at enough ⊢
        simp only [List.length_append, List.length_cons] at enough
        obtain ⟨fuel, rfl⟩ : ∃ less, fuel = less + 1 := ⟨fuel - 1, by omega⟩
        have later := ih (.cons second others) fuel (by omega)
        obtain ⟨c, more, front, mark, _⟩ := @separated_front k next parts second
        rw [List.append_assoc]
        refine items_more first (by omega) ?_
        change items (fuel + 1) (skipSpaces (separated (next :: parts) ++ ']' :: rest)) = _
        rw [front] at later ⊢
        rw [List.cons_append, skipSpaces_mark mark]
        exact later

theorem means_list (each : List.Forall₂ Means parts js) : Means ('[' :: separated parts ++ [']']) (.arr js) := by
  refine ⟨⟨'[', _, rfl, rfl⟩, fun {fuel rest} enough _ => ?_⟩
  rw [List.length_append, List.length_cons, List.length_singleton] at enough
  obtain ⟨fuel, rfl⟩ : ∃ less, fuel = less + 1 := ⟨fuel - 1, by omega⟩
  cases each with
  | nil => rfl
  | @cons part j parts js first others =>
    have inner := @items_separated rest j part parts js fuel (.cons first others) (by omega)
    obtain ⟨c, more, front, mark, other⟩ := @separated_front j part parts first
    rw [front] at inner ⊢
    have body : '[' :: c :: more ++ [']'] ++ rest = '[' :: c :: (more ++ ']' :: rest) := by simp
    rw [body, value, skipSpaces_mark mark]
    split
    · rename_i same
      exact absurd (List.cons.inj same).1 other
    · change (items fuel (c :: more ++ ']' :: rest) >>= fun found => pure (Json.arr found.1, found.2)) = _
      rw [inner]
      rfl

-- The fields on one line are rows, each on a margin of one space.
theorem rows_line {α : Type} {written : α → List Char} {field : Text × α} {others : List (Text × α)} :
    rows [' '] written (field :: others)
      = ' ' :: separated ((field :: others).map fun f => quoted f.1 ++ ':' :: ' ' :: written f.2) := by
  induction others generalizing field with
  | nil =>
    rw [rows_single, List.map_singleton, separated, List.intercalate_singleton]
    rfl
  | cons next others ih =>
    rw [rows_more, ih, List.map_cons, List.map_cons, List.map_cons, separated_more]
    simp only [row, List.cons_append, List.nil_append, List.append_assoc]

theorem means_object {α : Type} {written : α → List Char} {meant : α → Json} {entries : List (Text × α)}
    (means : ∀ f ∈ entries, Means (written f.2) (meant f.2)) :
    Means ('\x7b' :: separated (entries.map fun f => quoted f.1 ++ ':' :: ' ' :: written f.2) ++ ['\x7d'])
      (.obj (distinctFields (entries.map fun f => (joined f.1, meant f.2)))) := by
  refine ⟨⟨'\x7b', _, rfl, rfl⟩, fun {fuel rest} enough _ => ?_⟩
  rw [List.length_append, List.length_cons, List.length_singleton] at enough
  obtain ⟨fuel, rfl⟩ : ∃ less, fuel = less + 1 := ⟨fuel - 1, by omega⟩
  cases entries with
  | nil => rfl
  | cons first others =>
    have ended : Ended ([] ++ '\x7d' :: rest) := by
      rintro c ⟨⟩
      decide
    have space : ∀ c ∈ [' '], isSpace c = true := List.forall_mem_singleton.mpr rfl
    have inner := @fields_rows α written meant [' '] [] fuel first others rest space (List.forall_mem_nil _) ended means
      (by rw [rows_line, List.length_cons]; omega)
    have body : skipSpaces (rows [' '] written (first :: others) ++ ([] ++ '\x7d' :: rest))
        = skipSpaces (separated ((first :: others).map fun f => quoted f.1 ++ ':' :: ' ' :: written f.2)
          ++ '\x7d' :: rest) := by
      rw [rows_line]
      rfl
    rw [body] at inner
    have opened : ∃ more, skipSpaces (separated ((first :: others).map fun f => quoted f.1 ++ ':' :: ' ' :: written f.2)
        ++ '\x7d' :: rest) = '\x22' :: more := by
      cases others with
      | nil => exact ⟨_, skipSpaces_mark rfl⟩
      | cons next others =>
        rw [List.map_cons, List.map_cons, separated_more]
        exact ⟨_, skipSpaces_mark rfl⟩
    rw [List.cons_append, List.cons_append, List.append_assoc]
    exact value_record opened inner

end Collections

end InlineProject.Json
