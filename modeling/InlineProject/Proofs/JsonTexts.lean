import InlineProject.Json.Parser
import InlineProject.Json.Printer
import Mathlib
/-!
Texts in quotes. What is written between quotes is read as the text that it was, whatever comes behind, but for
halves of a surrogate pair that stand side by side in it: they are read as one character. In a text that was read
there are none of them.
-/

namespace InlineProject

/-! ### The numbers of code points -/

namespace CodePoint

theorem ofNat?_toNat (p : CodePoint) : ofNat? p.toNat = some p := by
  cases p with
  | char c => exact dif_pos c.valid
  | half offset =>
    have beyond : ¬(firstHalf + offset.val).isValidChar := by
      unfold Nat.isValidChar firstHalf
      omega
    have within : firstHalf ≤ firstHalf + offset.val ∧ firstHalf + offset.val < firstHalf + 2048 := by
      omega
    unfold ofNat? toNat
    dsimp only
    rw [dif_neg beyond, dif_pos within]
    simp

theorem toNat_injective {p q : CodePoint} (same : p.toNat = q.toNat) : p = q := by
  have found : ofNat? p.toNat = ofNat? q.toNat := by rw [same]
  rwa [ofNat?_toNat, ofNat?_toNat, Option.some.injEq] at found

theorem toNat_of_ofNat? {n : Nat} {p : CodePoint} (made : ofNat? n = some p) : p.toNat = n := by
  unfold ofNat? at made
  split at made
  · cases made
    rfl
  · split at made
    · cases made
      unfold toNat
      dsimp only
      omega
    · cases made

-- A character is no half of a pair.
theorem char_aside (c : Char) : c.toNat < 0xD800 ∨ 0xE000 ≤ c.toNat := by
  have valid : c.toNat < 0xD800 ∨ (0xDFFF < c.toNat ∧ c.toNat < 0x110000) := c.valid
  omega

theorem toNat_lt (p : CodePoint) : p.toNat < 0x110000 := by
  cases p with
  | char c =>
    have valid : c.toNat < 0xD800 ∨ (0xDFFF < c.toNat ∧ c.toNat < 0x110000) := c.valid
    change c.toNat < _
    omega
  | half offset =>
    change firstHalf + offset.val < _
    unfold firstHalf
    omega

end CodePoint

namespace Json

/-! ### Four hexadecimal digits -/

-- Digits of a number, as many as there shall be.
structure Spells (width n : Nat) (cs : List Char) : Prop where
  length : cs.length = width
  digits : cs.all Digit.isHex = true
  value : hexValue cs = n

theorem digit_spells {n : Nat} (small : n < 16) :
    Digit.isHex n.digitChar = true ∧ Digit.value? n.digitChar = some n := by
  have each : ∀ k : Fin 16, Digit.isHex k.val.digitChar = true ∧
      Digit.value? k.val.digitChar = some k.val := by decide
  exact each ⟨n, small⟩

theorem Spells.next {width n : Nat} {cs : List Char} (spells : Spells width (n / 16) cs) :
    Spells (width + 1) n (cs ++ [(n % 16).digitChar]) := by
  obtain ⟨hex, value⟩ := digit_spells (Nat.mod_lt n (by decide : 0 < 16))
  refine ⟨?_, ?_, ?_⟩
  · rw [List.length_append, spells.length, List.length_singleton]
  · rw [List.all_append, spells.digits, List.all_cons, hex, List.all_nil]
    rfl
  · have front : cs.foldl (fun n c => n * 16 + (Digit.value? c).getD 0) 0 = n / 16 := spells.value
    unfold hexValue Digit.natOf
    rw [List.foldl_append, front, List.foldl_cons, List.foldl_nil, value, Option.getD_some]
    omega

-- One digit more tells the number apart by its last digit.
theorem padded_next {width n : Nat} (some : 0 < width) :
    Digit.padded (width + 1) (Digit.ofNat 16 n)
      = Digit.padded width (Digit.ofNat 16 (n / 16)) ++ [(n % 16).digitChar] := by
  unfold Digit.padded Digit.ofNat
  by_cases small : n < 16
  · have none : n / 16 = 0 := Nat.div_eq_of_lt small
    obtain ⟨less, rfl⟩ := Nat.exists_eq_add_of_lt some
    rw [Nat.toDigits_of_lt_base small, none, Nat.toDigits_of_lt_base (by decide : 0 < 16),
      Nat.mod_eq_of_lt small]
    simp only [List.length_singleton, Nat.zero_add, Nat.add_sub_cancel]
    rw [List.replicate_succ']
    rfl
  · rw [Nat.toDigits_eq_if (by decide), if_neg small, List.length_append, List.length_singleton,
      Nat.add_sub_add_right, List.append_assoc]

theorem padded_spells {width n : Nat} (small : n < 16 ^ (width + 1)) :
    Spells (width + 1) n (Digit.padded (width + 1) (Digit.ofNat 16 n)) := by
  induction width generalizing n with
  | zero =>
    have small : n < 16 := small
    obtain ⟨hex, value⟩ := digit_spells small
    have single : Digit.padded 1 (Digit.ofNat 16 n) = [n.digitChar] := by
      unfold Digit.padded Digit.ofNat
      rw [Nat.toDigits_of_lt_base small]
      rfl
    rw [single]
    refine ⟨rfl, ?_, ?_⟩
    · rw [List.all_cons, hex, List.all_nil]
      rfl
    · unfold hexValue Digit.natOf
      rw [List.foldl_cons, List.foldl_nil, value, Option.getD_some, Nat.zero_mul, Nat.zero_add]
  | succ width ih =>
    rw [padded_next width.succ_pos]
    refine (ih ?_).next
    rw [Nat.pow_succ] at small
    exact Nat.div_lt_of_lt_mul (by omega)

theorem fourHex?_spells {n : Nat} {cs rest : List Char} (spells : Spells 4 n cs) :
    fourHex? (cs ++ rest) = some (n, rest) := by
  have front : (cs ++ rest).take 4 = cs := by
    rw [← spells.length, List.take_left]
  have behind : (cs ++ rest).drop 4 = rest := by
    rw [← spells.length, List.drop_left]
  unfold fourHex?
  dsimp only
  rw [front, behind, spells.length, spells.digits, spells.value]
  rfl

theorem fourHex?_unit {n : Nat} {rest : List Char} (small : n < 0x10000) :
    fourHex? (Digit.padded 4 (Digit.ofNat 16 n) ++ rest) = some (n, rest) := by
  have four : n < 16 ^ (3 + 1) := small
  exact fourHex?_spells (padded_spells four)

/-! ### Halves of pairs -/

theorem isHighHalf_exact {n : Nat} : isHighHalf n = true ↔ 0xD800 ≤ n ∧ n < 0xDC00 := by
  unfold isHighHalf
  rw [Bool.and_eq_true, decide_eq_true_eq, decide_eq_true_eq]

theorem isLowHalf_exact {n : Nat} : isLowHalf n = true ↔ 0xDC00 ≤ n ∧ n < 0xE000 := by
  unfold isLowHalf
  rw [Bool.and_eq_true, decide_eq_true_eq, decide_eq_true_eq]

-- No first half of a pair stands directly before a second half.
def Settled (t : Text) : Prop :=
  t.IsChain fun p q => ¬(isHighHalf p.toNat = true ∧ isLowHalf q.toNat = true)

theorem settled_cons {p : CodePoint} {t : Text} : Settled (p :: t) ↔
    (∀ q ∈ t.head?, ¬(isHighHalf p.toNat = true ∧ isLowHalf q.toNat = true)) ∧ Settled t :=
  List.isChain_cons

-- The text in which pairs of halves that stand side by side are characters.
def joined : Text → Text
  | p :: q :: rest =>
      if isHighHalf p.toNat && isLowHalf q.toNat then
        .char (Char.ofNat (joinHalves p.toNat q.toNat)) :: joined rest
      else p :: joined (q :: rest)
  | t => t

theorem joined_settled {t : Text} (settled : Settled t) : joined t = t := by
  fun_induction joined t with
  | case1 p q rest halves =>
    rw [Bool.and_eq_true] at halves
    exact absurd halves ((settled_cons.mp settled).1 q rfl)
  | case2 p q rest _ ih => rw [ih (settled_cons.mp settled).2]
  | case3 => rfl

theorem ofNat?_joinHalves {high low : Nat} (isHigh : isHighHalf high = true) (isLow : isLowHalf low = true) :
    CodePoint.ofNat? (joinHalves high low) = some (.char (Char.ofNat (joinHalves high low))) := by
  have first := isHighHalf_exact.mp isHigh
  have second := isLowHalf_exact.mp isLow
  have valid : (joinHalves high low).isValidChar := by
    unfold joinHalves
    right
    omega
  unfold CodePoint.ofNat? Char.ofNat
  rw [dif_pos valid, dif_pos valid]

-- An escape of the second half of a pair stands in front.
def OpensLow (cs : List Char) : Prop :=
  ∃ more n rest, cs = '\\' :: 'u' :: more ∧ fourHex? more = some (n, rest) ∧ isLowHalf n = true

/-! ### Escapes by number -/

-- What stands for a code point by itself, when its escape is not the first of a pair.
theorem unicodeEscape?_alone {n : Nat} {cs rest : List Char} (number : fourHex? cs = some (n, rest))
    (alone : ¬(isHighHalf n = true ∧ OpensLow rest)) :
    unicodeEscape? cs = (CodePoint.ofNat? n).map fun p => (p, rest) := by
  unfold unicodeEscape?
  rw [number]
  simp only [Option.bind_eq_bind, Option.bind_some]
  split
  · rename_i more
    cases next : fourHex? more with
    | none => rfl
    | some pair =>
      obtain ⟨low, after⟩ := pair
      dsimp only
      rw [if_neg]
      intro halves
      rw [Bool.and_eq_true] at halves
      exact alone ⟨halves.1, more, low, after, rfl, next, halves.2⟩
  · rfl

theorem unicodeEscape?_pair {high low : Nat} {cs more rest : List Char}
    (first : fourHex? cs = some (high, '\\' :: 'u' :: more))
    (second : fourHex? more = some (low, rest)) (isHigh : isHighHalf high = true)
    (isLow : isLowHalf low = true) :
    unicodeEscape? cs = (CodePoint.ofNat? (joinHalves high low)).map fun p => (p, rest) := by
  unfold unicodeEscape?
  rw [first]
  simp only [Option.bind_eq_bind, Option.bind_some]
  rw [second]
  dsimp only
  rw [isHigh, isLow]
  rfl

-- A first half that was read has no second half behind it.
theorem unicodeEscape?_parts {cs rest : List Char} {p : CodePoint}
    (read : unicodeEscape? cs = some (p, rest)) :
    (isHighHalf p.toNat = true → ¬OpensLow rest) ∧
      (isLowHalf p.toNat = true → ∃ n more, fourHex? cs = some (n, more) ∧ isLowHalf n = true) := by
  cases number : fourHex? cs with
  | none =>
    unfold unicodeEscape? at read
    rw [number] at read
    cases read
  | some pair =>
    obtain ⟨n, behind⟩ := pair
    by_cases paired : isHighHalf n = true ∧ OpensLow behind
    · obtain ⟨isHigh, more, low, after, rfl, next, isLow⟩ := paired
      rw [unicodeEscape?_pair number next isHigh isLow] at read
      obtain ⟨q, made, same⟩ := Option.map_eq_some_iff.mp read
      cases same
      have size := CodePoint.toNat_of_ofNat? made
      have beyond : 0x10000 ≤ p.toNat := by
        rw [size]
        unfold joinHalves
        omega
      refine ⟨fun high => ?_, fun low => ?_⟩
      · have := (isHighHalf_exact.mp high).2
        omega
      · have := (isLowHalf_exact.mp low).2
        omega
    · rw [unicodeEscape?_alone number paired] at read
      obtain ⟨q, made, same⟩ := Option.map_eq_some_iff.mp read
      cases same
      have size := CodePoint.toNat_of_ofNat? made
      rw [size]
      exact ⟨fun high opens => paired ⟨high, opens⟩, fun low => ⟨n, _, rfl, low⟩⟩

/-! ### Texts -/

-- What the reader of a text makes of one code point in front.
def Takes (fuel : Nat) (p : CodePoint) (cs behind : List Char) : Prop :=
  textFrom (fuel + 1) cs = (textFrom fuel behind).map fun (t, rest) => (p :: t, rest)

theorem takes_escape {fuel : Nat} {p : CodePoint} {cs behind : List Char}
    (escape : unicodeEscape? cs = some (p, behind)) :
    Takes fuel p ('\\' :: 'u' :: cs) behind := by
  unfold Takes
  rw [textFrom, escape]
  dsimp only
  cases textFrom fuel behind <;> rfl

theorem takes_simple {fuel : Nat} {c e : Char} {behind : List Char} (number : e ≠ 'u')
    (escape : simpleEscape? e = some c) : Takes fuel (.char c) ('\\' :: e :: behind) behind := by
  unfold Takes
  rw [textFrom, escape]
  · dsimp only
    cases textFrom fuel behind <;> rfl
  · exact fun same => number same

theorem takes_char {fuel : Nat} {c : Char} {behind : List Char} (noQuote : c ≠ '\x22')
    (noEscape : c ≠ '\\') (printable : 0x20 ≤ c.toNat) :
    Takes fuel (.char c) (c :: behind) behind := by
  unfold Takes
  rw [textFrom]
  · rw [if_neg (Nat.not_lt.mpr printable)]
    cases textFrom fuel behind <;> rfl
  · exact noQuote
  · exact fun _ same _ => noEscape same
  · exact fun same _ => noEscape same
  · exact fun _ _ same _ => noEscape same

-- The number of the first unit is that of the code point, unless the code point has a pair of them.
theorem units_parts {n : Nat} (bound : n < 0x110000) :
    (n < 0x10000 ∧ units n = [n]) ∨
      ∃ high low, units n = [high, low] ∧ isHighHalf high = true ∧ isLowHalf low = true ∧
        joinHalves high low = n := by
  unfold units
  by_cases single : n < 0x10000
  · exact .inl ⟨single, if_pos single⟩
  · rw [if_neg single]
    refine .inr ⟨_, _, rfl, ?_, ?_, ?_⟩
    · exact isHighHalf_exact.mpr (by omega)
    · exact isLowHalf_exact.mpr (by omega)
    · unfold joinHalves
      omega

theorem takes_units {fuel : Nat} {p : CodePoint} {behind : List Char}
    (alone : ¬(isHighHalf p.toNat = true ∧ OpensLow behind)) :
    Takes fuel p ((units p.toNat).flatMap unitEscape ++ behind) behind := by
  rcases units_parts p.toNat_lt with ⟨small, single⟩ | ⟨high, low, pair, isHigh, isLow, joined⟩
  · rw [single, List.flatMap_cons, List.flatMap_nil, List.append_nil, unitEscape, List.cons_append,
      List.cons_append]
    refine takes_escape ?_
    rw [unicodeEscape?_alone (fourHex?_unit small) alone, CodePoint.ofNat?_toNat]
    rfl
  · have small : high < 0x10000 ∧ low < 0x10000 := by
      have := (isHighHalf_exact.mp isHigh).2
      have := (isLowHalf_exact.mp isLow).2
      omega
    have split : (units p.toNat).flatMap unitEscape ++ behind
        = '\\' :: 'u' :: (Digit.padded 4 (Digit.ofNat 16 high)
          ++ '\\' :: 'u' :: (Digit.padded 4 (Digit.ofNat 16 low) ++ behind)) := by
      rw [pair]
      simp only [List.flatMap_cons, List.flatMap_nil, unitEscape, List.append_nil, List.cons_append,
        List.append_assoc]
    rw [split]
    refine takes_escape ?_
    rw [unicodeEscape?_pair (fourHex?_unit small.1) (fourHex?_unit small.2) isHigh isLow, joined,
      CodePoint.ofNat?_toNat]
    rfl

-- A code point is read from what is written for it.
theorem takes_point {fuel : Nat} {p : CodePoint} {behind : List Char}
    (alone : ¬(isHighHalf p.toNat = true ∧ OpensLow behind)) :
    Takes fuel p (escapedPoint p ++ behind) behind := by
  have simple {c e : Char} (number : p.toNat = c.toNat)
      (takes : Takes fuel (.char c) ('\\' :: e :: behind) behind) :
      Takes fuel p (['\\', e] ++ behind) behind := by
    obtain rfl : p = .char c := CodePoint.toNat_injective number
    exact takes
  unfold escapedPoint
  dsimp only
  split_ifs with quote slash feed ret tab form back plain
  · exact simple (c := '\x22') quote (takes_simple (by decide) rfl)
  · exact simple (c := '\\') slash (takes_simple (by decide) rfl)
  · exact simple (c := '\n') feed (takes_simple (by decide) rfl)
  · exact simple (c := '\r') ret (takes_simple (by decide) rfl)
  · exact simple (c := '\t') tab (takes_simple (by decide) rfl)
  · exact simple (c := '\x0C') form (takes_simple (by decide) rfl)
  · exact simple (c := '\x08') back (takes_simple (by decide) rfl)
  · rw [Bool.and_eq_true, decide_eq_true_eq, decide_eq_true_eq] at plain
    cases p with
    | half offset =>
      have above : 0xD800 ≤ (CodePoint.half offset).toNat := Nat.le_add_right _ _
      omega
    | char c =>
      have same : Char.ofNat c.toNat = c := Char.ofNat_toNat c
      change Takes fuel (.char c) ([Char.ofNat c.toNat] ++ behind) behind
      rw [same]
      refine takes_char ?_ ?_ plain.1
      · rintro rfl
        exact quote rfl
      · rintro rfl
        exact slash rfl
  · exact takes_units alone

theorem opensLow_point {p : CodePoint} {behind : List Char}
    (opens : OpensLow (escapedPoint p ++ behind)) : isLowHalf p.toNat = true := by
  obtain ⟨more, n, rest, front, number, low⟩ := opens
  unfold escapedPoint at front
  dsimp only at front
  split_ifs at front with quote slash feed ret tab form back plain
  · cases front
  · cases front
  · cases front
  · cases front
  · cases front
  · cases front
  · cases front
  · rw [Bool.and_eq_true, decide_eq_true_eq, decide_eq_true_eq] at plain
    have mark : Char.ofNat p.toNat = '\\' := (List.cons.inj front).1
    have valid : p.toNat.isValidChar := .inl (by omega)
    have same : (Char.ofNat p.toNat).toNat = p.toNat := by
      rw [Char.ofNat, dif_pos valid]
      rfl
    rw [mark] at same
    exact absurd same.symm slash
  · rcases units_parts p.toNat_lt with ⟨small, single⟩ | ⟨high, next, pair, isHigh, _, _⟩
    · rw [single, List.flatMap_cons, List.flatMap_nil, List.append_nil, unitEscape, List.cons_append,
        List.cons_append] at front
      obtain rfl := (List.cons.inj (List.cons.inj front).2).2
      rw [fourHex?_unit small] at number
      cases number
      exact low
    · have bound := isHighHalf_exact.mp isHigh
      rw [pair, List.flatMap_cons, unitEscape, List.append_assoc, List.cons_append,
        List.cons_append] at front
      obtain rfl := (List.cons.inj (List.cons.inj front).2).2
      rw [fourHex?_unit (Nat.lt_trans bound.2 (by decide))] at number
      cases number
      have := (isLowHalf_exact.mp low).1
      omega

theorem escapedPoint_some (p : CodePoint) : 0 < (escapedPoint p).length := by
  have some (n : Nat) (more : List Nat) : 0 < ((n :: more).flatMap unitEscape).length := by
    rw [List.flatMap_cons, unitEscape, List.cons_append, List.length_cons]
    exact Nat.succ_pos _
  unfold escapedPoint
  dsimp only
  split_ifs
  case neg =>
    rcases units_parts p.toNat_lt with ⟨_, single⟩ | ⟨high, low, pair, _⟩
    · rw [single]
      exact some _ _
    · rw [pair]
      exact some _ _
  all_goals exact Nat.succ_pos _

theorem escapedPoint_half {p : CodePoint} (above : 0xD800 ≤ p.toNat) (below : p.toNat < 0x10000) :
    escapedPoint p = unitEscape p.toNat := by
  unfold escapedPoint units
  dsimp only
  rw [if_neg (by omega), if_neg (by omega), if_neg (by omega), if_neg (by omega), if_neg (by omega), if_neg (by omega),
    if_neg (by omega), if_neg (by simp; omega), if_pos below, List.flatMap_cons, List.flatMap_nil, List.append_nil]

-- Two halves side by side are read as one character.
theorem takes_halves {fuel : Nat} {p q : CodePoint} {behind : List Char} (isHigh : isHighHalf p.toNat = true)
    (isLow : isLowHalf q.toNat = true) :
    Takes fuel (.char (Char.ofNat (joinHalves p.toNat q.toNat))) (escapedPoint p ++ (escapedPoint q ++ behind)) behind := by
  have high := isHighHalf_exact.mp isHigh
  have low := isLowHalf_exact.mp isLow
  rw [escapedPoint_half high.1 (by omega), escapedPoint_half (by omega) (by omega), unitEscape, unitEscape,
    List.cons_append, List.cons_append, List.cons_append, List.cons_append]
  refine takes_escape ?_
  rw [unicodeEscape?_pair (fourHex?_unit (by omega)) (fourHex?_unit (by omega))
    isHigh isLow, ofNat?_joinHalves isHigh isLow]
  rfl

-- The induction is on how halves stand in the text; any other code point is read by itself.
theorem textFrom_written {t : Text} {fuel : Nat} {rest : List Char} (enough : t.length < fuel) :
    textFrom fuel (t.flatMap escapedPoint ++ '\x22' :: rest) = .ok (joined t, rest) := by
  fun_induction joined t generalizing fuel with
  | case1 p q t halves ih =>
    rw [Bool.and_eq_true] at halves
    obtain ⟨fuel, rfl⟩ : ∃ less, fuel = less + 1 := ⟨fuel - 1, by omega⟩
    have takes : Takes fuel (.char (Char.ofNat (joinHalves p.toNat q.toNat)))
        (escapedPoint p ++ (escapedPoint q ++ (t.flatMap escapedPoint ++ '\x22' :: rest)))
        (t.flatMap escapedPoint ++ '\x22' :: rest) := takes_halves halves.1 halves.2
    unfold Takes at takes
    rw [List.flatMap_cons, List.flatMap_cons, List.append_assoc, List.append_assoc, takes,
      ih (by simp only [List.length_cons] at enough; omega)]
    rfl
  | case2 p q t apart ih =>
    obtain ⟨fuel, rfl⟩ : ∃ less, fuel = less + 1 := ⟨fuel - 1, by omega⟩
    have alone : ¬(isHighHalf p.toNat = true ∧
        OpensLow ((q :: t).flatMap escapedPoint ++ '\x22' :: rest)) := by
      rintro ⟨high, opens⟩
      rw [List.flatMap_cons, List.append_assoc] at opens
      exact apart (Bool.and_eq_true _ _ ▸ ⟨high, opensLow_point opens⟩)
    have takes : Takes fuel p (escapedPoint p ++ ((q :: t).flatMap escapedPoint ++ '\x22' :: rest))
        ((q :: t).flatMap escapedPoint ++ '\x22' :: rest) := takes_point alone
    unfold Takes at takes
    rw [List.flatMap_cons, List.append_assoc, takes, ih (Nat.lt_of_succ_lt_succ enough)]
    rfl
  | case3 t short =>
    have last {fuel : Nat} : textFrom (fuel + 1) ('\x22' :: rest) = .ok ([], rest) := rfl
    match t, short with
    | [], _ =>
      obtain ⟨fuel, rfl⟩ : ∃ less, fuel = less + 1 := ⟨fuel - 1, by omega⟩
      exact last
    | [p], _ =>
      obtain ⟨fuel, rfl⟩ : ∃ less, fuel = less + 1 + 1 := ⟨fuel - 2, by
        rw [List.length_singleton] at enough
        omega⟩
      have alone : ¬(isHighHalf p.toNat = true ∧ OpensLow ('\x22' :: rest)) := by
        rintro ⟨_, _, _, _, front, _⟩
        cases front
      have takes : Takes (fuel + 1) p (escapedPoint p ++ '\x22' :: rest) ('\x22' :: rest) := takes_point alone
      unfold Takes at takes
      rw [List.flatMap_cons, List.flatMap_nil, List.append_nil, takes, last]
      rfl
    | p :: q :: t, short => exact absurd rfl (short p q t)

theorem length_written (t : Text) : t.length ≤ (t.flatMap escapedPoint).length := by
  induction t with
  | nil => exact Nat.le_refl _
  | cons p t ih =>
    have some := escapedPoint_some p
    rw [List.flatMap_cons, List.length_append, List.length_cons]
    omega

theorem text_written {t : Text} {rest : List Char} :
    text (t.flatMap escapedPoint ++ '\x22' :: rest) = .ok (joined t, rest) := by
  refine textFrom_written ?_
  have long := length_written t
  rw [List.length_append, List.length_cons]
  omega

/-! ### Texts that were read -/

theorem prepended_parts {fuel : Nat} {p : CodePoint} {cs rest : List Char} {t : Text}
    (read : (do let (t, rest) ← textFrom fuel cs; return (p :: t, rest)) = .ok (t, rest)) :
    ∃ behind, t = p :: behind ∧ textFrom fuel cs = .ok (behind, rest) := by
  cases inner : textFrom fuel cs with
  | error e =>
    rw [inner] at read
    cases read
  | ok pair =>
    rw [inner] at read
    cases read
    exact ⟨_, rfl, rfl⟩

-- A character in front settles nothing and disturbs nothing.
theorem settled_char {c : Char} {t : Text} (settled : Settled t) :
    Settled (.char c :: t) ∧ ∀ p ∈ (CodePoint.char c :: t).head?, ¬isLowHalf p.toNat = true := by
  have away : c.toNat < 0xD800 ∨ 0xE000 ≤ c.toNat := CodePoint.char_aside c
  refine ⟨settled_cons.mpr ⟨fun q _ halves => ?_, settled⟩, fun p first low => ?_⟩
  · have high : 0xD800 ≤ c.toNat ∧ c.toNat < 0xDC00 := isHighHalf_exact.mp halves.1
    omega
  · cases first
    have low : 0xDC00 ≤ c.toNat ∧ c.toNat < 0xE000 := isLowHalf_exact.mp low
    omega

-- What was read is in order, and starts with a second half only where the escape of one stands in front.
theorem textFrom_parts {fuel : Nat} {cs rest : List Char} {t : Text}
    (read : textFrom fuel cs = .ok (t, rest)) :
    Settled t ∧ ∀ p ∈ t.head?, isLowHalf p.toNat = true → OpensLow cs := by
  fun_induction textFrom fuel cs generalizing t rest with
  | case1 => cases read
  | case2 => cases read
  | case3 =>
    cases read
    exact ⟨.nil, nofun⟩
  | case4 fuel cs p behind escape ih =>
    obtain ⟨more, rfl, inner⟩ := prepended_parts read
    obtain ⟨settled, opens⟩ := ih inner
    obtain ⟨high, low⟩ := unicodeEscape?_parts escape
    refine ⟨settled_cons.mpr ⟨fun q next halves => ?_, settled⟩, fun q first isLow => ?_⟩
    · exact high halves.1 (opens q next halves.2)
    · cases first
      obtain ⟨n, rest, number, half⟩ := low isLow
      exact ⟨cs, n, rest, rfl, number, half⟩
  | case5 => cases read
  | case6 => cases read
  | case7 fuel e rest other c simple ih =>
    obtain ⟨more, rfl, inner⟩ := prepended_parts read
    obtain ⟨settled, noLow⟩ := settled_char (c := c) (ih inner).1
    exact ⟨settled, fun p first low => absurd low (noLow p first)⟩
  | case8 => cases read
  | case9 => cases read
  | case10 fuel c rest _ _ _ _ _ ih =>
    obtain ⟨more, rfl, inner⟩ := prepended_parts read
    obtain ⟨settled, noLow⟩ := settled_char (c := c) (ih inner).1
    exact ⟨settled, fun p first low => absurd low (noLow p first)⟩

theorem text_settled {cs rest : List Char} {t : Text} (read : text cs = .ok (t, rest)) : Settled t :=
  (textFrom_parts read).1

end Json
end InlineProject
