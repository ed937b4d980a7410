import Mathlib.Data.List.TakeWhile
import InlineProject.Ignore.Glob
/-!
Characters in brackets. They are cut at the hyphens before the ranges are made, and ranges that end before their start
are dropped with what they hold; whatever is left stands there as well where the characters are read from left to right.
-/

namespace InlineProject.Glob

variable {cs more front : List Char} {parts others : List (List Char)} {part q : List Char} {c first last start : Char}
  {n : Nat}

-- What stands in brackets, read from left to right. The first character of a range stands for itself, even where the
-- last one comes before it.
def listed : List Char → Char → Bool
  | first :: '-' :: last :: rest, c => first = c || (first ≤ c && c ≤ last) || listed rest c
  | first :: rest, c => first = c || listed rest c
  | [], _ => false

-- The parts with a character before the first one.
def prepend (c : Char) : List (List Char) → List (List Char)
  | [] => [[c]]
  | part :: rest => (c :: part) :: rest

-- A first part without characters is the only one.
def Solid (parts : List (List Char)) : Prop := ∀ rest, parts = [] :: rest → rest = []

/-! ### The parts between hyphens -/

theorem partsFrom_end : partsFrom n 2 (last :: more) = prepend last (partsFrom n 1 more) := by
  cases n with
  | zero => rfl
  | succ n =>
    unfold partsFrom
    have split : (last :: more).splitAt 2 = (last :: (more.splitAt 1).1, (more.splitAt 1).2) := by
      simp [List.splitAt_eq]
    rw [split]
    dsimp only
    split <;> rfl

theorem partsFrom_solid : Solid (partsFrom n 1 cs) := by
  intro rest none
  cases n with
  | zero => exact (List.cons.inj none).2.symm
  | succ n =>
    cases cs with
    | nil => exact (List.cons.inj none).2.symm
    | cons c cs =>
      unfold partsFrom at none
      rw [List.splitAt_eq] at none
      dsimp only [List.take, List.drop] at none
      split at none <;> cases none

theorem partsFrom_some : partsFrom n 1 cs ≠ [] := by
  cases n with
  | zero => exact List.cons_ne_nil _ _
  | succ n =>
    unfold partsFrom
    dsimp only
    split <;> exact List.cons_ne_nil _ _

/-! ### Ranges that end before their start -/

theorem dropEmptyRanges_some (some : parts ≠ []) : dropEmptyRanges parts ≠ [] := by
  cases parts with
  | nil => exact some
  | cons part rest =>
    unfold dropEmptyRanges
    split
    · exact List.cons_ne_nil _ _
    · split
      · split <;> exact List.cons_ne_nil _ _
      · exact List.cons_ne_nil _ _

-- A character before all others does not matter.
theorem dropEmptyRanges_prepend (solid : Solid parts) (some : parts ≠ []) :
    dropEmptyRanges (prepend c parts) = prepend c (dropEmptyRanges parts) := by
  cases parts with
  | nil => exact absurd rfl some
  | cons part rest =>
    cases part with
    | nil =>
      rw [solid rest rfl]
      rfl
    | cons d part =>
      unfold prepend
      rw [dropEmptyRanges, dropEmptyRanges]
      cases dropEmptyRanges rest with
      | nil => rfl
      | cons next others =>
        rw [List.getLast?_cons_cons]
        cases next with
        | nil => simp
        | cons stop next =>
          cases ending : (d :: part).getLast? with
          | none => rfl
          | some start =>
            dsimp only [List.head?]
            split <;> rfl

/-! ### Signs -/

theorem signs_single : signs [part] = part.map Sign.char := by simp [signs]

theorem signs_more : signs (part :: q :: others) = part.map Sign.char ++ .through :: signs (q :: others) := by
  simp [signs, List.intercalate_cons_cons]

theorem signs_prepend (some : parts ≠ []) : signs (prepend c parts) = .char c :: signs parts := by
  rcases parts with _ | ⟨part, _ | ⟨next, others⟩⟩
  · exact absurd rfl some
  · rw [prepend, signs_single, signs_single]
    rfl
  · rw [prepend, signs_more, signs_more]
    rfl

theorem signs_append : signs ((front ++ q) :: others) = front.map Sign.char ++ signs (q :: others) := by
  cases others with
  | nil => rw [signs_single, signs_single, List.map_append]
  | cons next others => rw [signs_more, signs_more, List.map_append, List.append_assoc]

theorem signs_start (solid : Solid (q :: others)) : (signs (q :: others)).head? ≠ some .through := by
  cases q with
  | nil =>
    rw [solid others rfl, signs_single]
    exact nofun
  | cons c q =>
    rw [show (c :: q) :: others = prepend c (q :: others) from rfl, signs_prepend (List.cons_ne_nil _ _)]
    exact nofun

-- Characters that no hyphen follows stand for themselves.
theorem ranges_plain {ss : List Sign} (follows : ss.head? ≠ some .through) :
    inRanges (ranges (front.map Sign.char ++ ss)) c = true ↔ c ∈ front ∨ inRanges (ranges ss) c = true := by
  induction front with
  | nil => simp
  | cons d front ih =>
    have single : ranges (.char d :: (front.map Sign.char ++ ss)) = (d, d) :: ranges (front.map Sign.char ++ ss) := by
      cases front with
      | nil =>
        cases ss with
        | nil => rfl
        | cons s ss =>
          cases s with
          | char e => rfl
          | through => exact absurd rfl follows
      | cons e front => rfl
    rw [List.map_cons, List.cons_append, single]
    unfold inRanges at ih ⊢
    rw [List.any_cons, Bool.or_eq_true, ih, List.mem_cons, Bool.and_eq_true, decide_eq_true_eq, decide_eq_true_eq]
    have same : d ≤ c ∧ c ≤ d ↔ c = d := ⟨fun both => Char.le_antisymm both.2 both.1, by rintro rfl; simp⟩
    rw [same, or_assoc]

/-! ### From left to right -/

theorem listed_cons (plain : ∀ last rest, more ≠ '-' :: last :: rest) :
    listed (first :: more) c = (first = c || listed more c) := by
  rcases more with _ | ⟨d, _ | ⟨last, rest⟩⟩
  · rfl
  · rw [listed]
    exact nofun
  · rw [listed]
    rintro last rest ⟨rfl, rfl⟩
    exact plain _ _ rfl

-- Without a hyphen between two characters all of them stand for themselves.
theorem listed_plain (plain : ∀ last rest, more.dropWhile (· != hyphen) ≠ hyphen :: last :: rest)
    (member : c ∈ first :: more) : listed (first :: more) c = true := by
  induction more generalizing first with
  | nil =>
    rw [List.mem_singleton.mp member]
    simp [listed]
  | cons d more ih =>
    have next : ∀ last rest, d :: more ≠ '-' :: last :: rest := by
      rintro last rest ⟨rfl, rfl⟩
      exact plain last rest rfl
    rw [listed_cons next, Bool.or_eq_true, decide_eq_true_eq]
    refine (List.mem_cons.mp member).imp Eq.symm fun later => ih (fun last rest ends => ?_) later
    by_cases mark : d = hyphen
    · -- a hyphen here is the last character
      subst mark
      cases more with
      | nil => cases ends
      | cons e more => exact next e more rfl
    · refine plain last rest ?_
      rwa [List.dropWhile_cons_of_pos (by simpa using mark)]

theorem listed_range {middle : List Char} (plain : hyphen ∉ middle)
    (member : c ∈ first :: middle ∨ (∃ start, (first :: middle).getLast? = some start ∧ start ≤ c ∧ c ≤ last) ∨
      listed more c = true) : listed (first :: (middle ++ hyphen :: last :: more)) c = true := by
  induction middle generalizing first with
  | nil =>
    rw [List.nil_append]
    change listed (first :: '-' :: last :: more) c = true
    rw [listed, Bool.or_eq_true, Bool.or_eq_true, Bool.and_eq_true, decide_eq_true_eq, decide_eq_true_eq,
      decide_eq_true_eq, or_assoc]
    refine member.imp (fun single => (List.mem_singleton.mp single).symm) (Or.imp_left ?_)
    rintro ⟨start, ends, between⟩
    rw [List.getLast?_singleton] at ends
    rwa [Option.some.inj ends]
  | cons d middle ih =>
    rw [List.mem_cons, not_or] at plain
    have next : ∀ last' rest, d :: (middle ++ hyphen :: last :: more) ≠ '-' :: last' :: rest := by
      rintro last' rest same
      exact plain.1 (List.cons.inj same).1.symm
    rw [List.cons_append, listed_cons next, Bool.or_eq_true, decide_eq_true_eq]
    rw [List.mem_cons, or_assoc, List.getLast?_cons_cons] at member
    exact member.imp Eq.symm fun later => ih plain.2 later

-- A first part that is the only one, from left to right.
theorem single_listed (plain : ∀ last rest, more.dropWhile (· != hyphen) ≠ hyphen :: last :: rest) :
    Solid (dropEmptyRanges [first :: more]) ∧
      ∀ c, inRanges (ranges (signs (dropEmptyRanges [first :: more]))) c = true → listed (first :: more) c = true := by
  refine ⟨fun rest none => (List.cons.inj none).2.symm, fun c inside => listed_plain plain ?_⟩
  have single : dropEmptyRanges [first :: more] = [first :: more] := rfl
  rw [single, signs_single, ← List.append_nil (List.map Sign.char _), ranges_plain (by exact nofun)] at inside
  exact inside.resolve_right nofun

section Range

variable {middle behind : List Char} (whole : first :: middle = front ++ [start]) (plain : hyphen ∉ middle)
  (inside : ∀ c, inRanges (ranges (signs (q :: others))) c = true → listed behind c = true)

include whole plain inside

-- Of a range without characters its ends are left out.
theorem dropped_listed (solid : Solid (q :: others)) : Solid ((front ++ q) :: others) ∧
    ∀ c, inRanges (ranges (signs ((front ++ q) :: others))) c = true →
      listed (first :: (middle ++ hyphen :: last :: behind)) c = true := by
  refine ⟨?_, fun c there => listed_range plain ?_⟩
  · intro rest none
    obtain ⟨empty, rfl⟩ := List.cons.inj none
    rw [List.append_eq_nil_iff] at empty
    exact solid others (by rw [empty.2])
  · rw [signs_append, ranges_plain (signs_start solid)] at there
    refine there.imp (fun member => ?_) fun later => .inr (inside c later)
    rw [whole]
    exact List.mem_append_left _ member

theorem kept_listed : Solid ((first :: middle) :: (last :: q) :: others) ∧
    ∀ c, inRanges (ranges (signs ((first :: middle) :: (last :: q) :: others))) c = true →
      listed (first :: (middle ++ hyphen :: last :: behind)) c = true := by
  refine ⟨?_, fun c there => listed_range plain ?_⟩
  · intro rest none
    cases none
  · have ending : (first :: middle).getLast? = some start := by rw [whole, List.getLast?_concat]
    rw [whole, signs_more, show (last :: q) :: others = prepend last (q :: others) from rfl,
      signs_prepend (List.cons_ne_nil _ _), List.map_append, List.append_assoc,
      ranges_plain (by exact nofun)] at there
    refine there.imp (fun member => ?_) fun later => ?_
    · rw [whole]
      exact List.mem_append_left _ member
    · have range : ranges (List.map Sign.char [start] ++ .through :: .char last :: signs (q :: others))
          = (start, last) :: ranges (signs (q :: others)) := rfl
      rw [range] at later
      unfold inRanges at later
      rw [List.any_cons, Bool.or_eq_true, Bool.and_eq_true, decide_eq_true_eq, decide_eq_true_eq] at later
      exact later.imp (fun between => ⟨start, ending, between⟩) (inside c)

end Range

-- The induction is on the parts; with it goes that no range is left without characters before it.
theorem ranges_listed (short : cs.length ≤ n) :
    Solid (dropEmptyRanges (partsFrom n 1 cs)) ∧
      ∀ c, inRanges (ranges (signs (dropEmptyRanges (partsFrom n 1 cs)))) c = true → listed cs c = true := by
  induction n generalizing cs with
  | zero =>
    rw [List.eq_nil_of_length_eq_zero (Nat.le_zero.mp short)]
    exact ⟨fun rest none => (List.cons.inj none).2.symm, nofun⟩
  | succ n ih =>
    cases cs with
    | nil => exact ⟨fun rest none => (List.cons.inj none).2.symm, nofun⟩
    | cons first more =>
      rw [partsFrom, List.splitAt_eq]
      dsimp only [List.take, List.drop]
      split
      · rename_i none
        exact single_listed fun last rest ends => by rw [none] at ends; cases ends
      · rename_i mark single
        exact single_listed fun last rest ends => by rw [single] at ends; cases ends
      · rename_i mark behind notLast ends
        obtain _ | ⟨last, behind⟩ := behind
        · exact absurd rfl notLast
        have marked : mark = hyphen := by
          have stops := List.head?_dropWhile_not (· != hyphen) more
          rw [ends] at stops
          simpa using stops
        subst marked
        have cut : more = more.takeWhile (· != hyphen) ++ hyphen :: last :: behind := by
          rw [← ends, List.takeWhile_append_dropWhile]
        have plain : hyphen ∉ more.takeWhile (· != hyphen) := fun member => by
          simpa using List.mem_takeWhile_imp member
        have less : behind.length ≤ n := by
          have length := congrArg List.length cut
          simp only [List.length_append, List.length_cons] at length short
          omega
        obtain ⟨solid, inside⟩ := ih less
        generalize more.takeWhile (· != hyphen) = middle at cut plain
        subst cut
        rw [partsFrom_end, dropEmptyRanges, dropEmptyRanges_prepend partsFrom_solid partsFrom_some]
        have kept : dropEmptyRanges (partsFrom n 1 behind) ≠ [] := dropEmptyRanges_some partsFrom_some
        obtain ⟨q, others, rest⟩ := List.exists_cons_of_ne_nil kept
        rw [rest] at solid inside ⊢
        obtain ⟨front, start, part⟩ : ∃ front start, first :: middle = front ++ [start] :=
          ⟨_, _, (List.dropLast_concat_getLast (List.cons_ne_nil first middle)).symm⟩
        have ending : (first :: middle).getLast? = some start := by rw [part, List.getLast?_concat]
        have shorter : (first :: middle).dropLast = front := by rw [part, List.dropLast_concat]
        dsimp only [prepend, List.singleton_append]
        rw [ending]
        dsimp only [List.head?]
        split
        · rw [shorter]
          exact dropped_listed part plain inside solid
        · exact kept_listed part plain inside

end InlineProject.Glob
