import Mathlib.Data.List.Infix
import InlineProject.Ignore.Pattern
import InlineProject.Proofs.BracketRanges
/-!
Ignored paths. Version control reads a line of what to ignore so that a wildcard never stands for a slash. A pattern
accepts what the line says in this reading and, where it is compared with paths, longer paths besides.
-/

namespace InlineProject

open InlineProject.Glob

/-! ### The rule -/

namespace Ignore

-- What closes a bracket is the first closing one that does not come first of all.
structure Enclosed (body : List Char) : Prop where
  nonempty : body ≠ []
  closes : ']' ∉ body.tail

-- What a pattern stands for, without named classes of characters. A wildcard stays in one part of a path, and brackets
-- that begin with a circumflex stand for what they do not list.
inductive Fits : List Char → List Char → Prop where
  | nil : Fits [] []
  | same {c : Char} {pattern cs : List Char} (plain : c ∉ ['*', '?', '[']) (fits : Fits pattern cs) :
      Fits (c :: pattern) (c :: cs)
  | any {c : Char} {pattern cs : List Char} (flat : c ≠ '/') (fits : Fits pattern cs) : Fits ('?' :: pattern) (c :: cs)
  | run {run pattern cs : List Char} (flat : '/' ∉ run) (fits : Fits pattern cs) : Fits ('*' :: pattern) (run ++ cs)
  | among {c : Char} {body pattern cs : List Char} (enclosed : Enclosed body) (other : body.head? ≠ some '^')
      (unnamed : ¬['[', ':'] <:+: body) (member : listed body c = true) (flat : c ≠ '/') (fits : Fits pattern cs) :
      Fits ('[' :: (body ++ ']' :: pattern)) (c :: cs)
  | outside {c : Char} {body pattern cs : List Char} (enclosed : Enclosed body) (unnamed : ¬['[', ':'] <:+: body)
      (absent : listed body c = false) (flat : c ≠ '/') (fits : Fits pattern cs) :
      Fits ('[' :: '^' :: (body ++ ']' :: pattern)) (c :: cs)

-- A line without the slash that restricts it to directories.
def withoutLast (line : List Char) : List Char := if line.getLast? = some '/' then line.dropLast else line

-- What a line says of a path. A slash before its end ties it to the root; without one it is about the last name.
structure Rule (line path : List Char) (isDirectory : Bool) : Prop where
  noComment : line.head? ≠ some '#'
  directory : line.getLast? = some '/' → isDirectory = true
  anchored : '/' ∈ withoutLast line →
    Fits (if line.head? = some '/' then (withoutLast line).tail else withoutLast line) path
  loose : '/' ∉ withoutLast line → Fits (withoutLast line) (Pattern.lastName path)

-- Lines without exclusions, escapes and runs of directories, and of those the ones with single slashes at their ends,
-- and with brackets that list what they stand for.
structure Ordinary (line : List Char) : Prop where
  bare : Blank.trim line = line
  exclusion : '!' ∉ line
  escape : '\\' ∉ line
  deep : ¬['*', '*'] <:+: line
  front : ¬['/', '/'] <+: line
  back : ¬['/', '/'] <:+ line
  negation : ¬['[', '^'] <:+: line
  named : ¬['[', ':'] <:+: line

end Ignore

/-! ### Brackets -/

namespace Glob

open InlineProject.Ignore (Enclosed)

variable {cs body behind pattern : List Char} {g : Glob} {c : Char} {n : Nat}

-- The first character stands in the brackets whatever it is.
theorem bracket?_cons {d : Char} (plain : d ≠ negation) : bracket? (d :: cs) =
    match cs.dropWhile (· != ']') with
    | [] => none
    | _ :: rest => some (d :: cs.takeWhile (· != ']'), rest) := by
  have other : ¬(d :: cs).head? = some negation := fun same => plain (Option.some.inj same)
  unfold bracket?
  rw [if_neg other, List.splitAt_eq]
  dsimp only [List.take, List.drop]
  by_cases first : d = ']'
  · rw [if_pos (by rw [first]; rfl), List.splitAt_eq, first]
    rfl
  · have pass : (d != ']') = true := by simpa using first
    have another : ¬(d :: cs).head? = some ']' := fun same => first (Option.some.inj same)
    rw [if_neg another, List.splitAt_eq]
    dsimp only [List.take, List.drop]
    rw [List.dropWhile_cons_of_pos (p := (· != ']')) pass, List.takeWhile_cons_of_pos (p := (· != ']')) pass]
    rfl

theorem bracket?_parts (single : '!' ∉ cs) (closed : bracket? cs = some (body, behind)) :
    cs = body ++ ']' :: behind ∧ Enclosed body := by
  cases cs with
  | nil => cases closed
  | cons d cs =>
    rw [bracket?_cons fun same => single (by rw [same]; exact List.mem_cons_self)] at closed
    cases ends : cs.dropWhile (· != ']') with
    | nil =>
      rw [ends] at closed
      cases closed
    | cons mark rest =>
      have stops := List.head?_dropWhile_not (· != ']') cs
      rw [ends] at stops closed
      obtain rfl : mark = ']' := by simpa using stops
      cases closed
      refine ⟨?_, List.cons_ne_nil _ _, fun member => by simpa using List.mem_takeWhile_imp member⟩
      rw [List.cons_append, ← ends, List.takeWhile_append_dropWhile]

theorem bracket?_enclosed (enclosed : Enclosed body) (single : '!' ∉ body) :
    bracket? (body ++ ']' :: behind) = some (body, behind) := by
  obtain ⟨nonempty, closes⟩ := enclosed
  cases body with
  | nil => exact absurd rfl nonempty
  | cons d body =>
    have passes : ∀ c ∈ body, (c != ']') = true := fun c member => by
      have other : c ≠ ']' := fun same => closes (same ▸ member)
      simpa using other
    rw [List.cons_append, bracket?_cons fun same => single (by rw [same]; exact List.mem_cons_self),
      List.takeWhile_append_of_pos passes, List.dropWhile_append_of_pos passes]
    simp

theorem mem_partsFrom {skip : Nat} {part : List Char} (listed : part ∈ partsFrom n skip cs) (member : c ∈ part) :
    c ∈ cs := by
  induction n generalizing skip cs with
  | zero => rwa [List.mem_singleton.mp listed] at member
  | succ n ih =>
    unfold partsFrom at listed
    rw [List.splitAt_eq] at listed
    dsimp only at listed
    split at listed
    · rwa [List.mem_singleton.mp listed] at member
    · rwa [List.mem_singleton.mp listed] at member
    · rename_i ends
      rw [← List.take_append_drop skip cs]
      rcases List.mem_cons.mp listed with rfl | later
      · refine List.mem_append.mpr ((List.mem_append.mp member).imp_right fun front => ?_)
        exact (List.takeWhile_prefix _).subset front
      · refine List.mem_append_right _ ((List.dropWhile_suffix (· != hyphen)).subset ?_)
        rw [ends]
        exact List.mem_cons_of_mem _ (ih later)

theorem mem_dropEmptyRanges {parts : List (List Char)} {part : List Char} (kept : part ∈ dropEmptyRanges parts)
    (member : c ∈ part) : ∃ part ∈ parts, c ∈ part := by
  induction parts generalizing part with
  | nil => cases kept
  | cons first rest ih =>
    have later {part : List Char} (kept : part ∈ dropEmptyRanges rest) (member : c ∈ part) :
        ∃ part ∈ first :: rest, c ∈ part :=
      (ih kept member).imp fun _ both => ⟨List.mem_cons_of_mem _ both.1, both.2⟩
    have own (member : c ∈ first) : ∃ part ∈ first :: rest, c ∈ part := ⟨first, List.mem_cons_self, member⟩
    unfold dropEmptyRanges at kept
    split at kept
    · rw [List.mem_singleton.mp kept] at member
      exact own member
    · rename_i next others after
      rw [after] at later
      have apart (kept : part ∈ first :: next :: others) : ∃ part ∈ first :: rest, c ∈ part := by
        rcases List.mem_cons.mp kept with rfl | kept
        · exact own member
        · exact later kept member
      split at kept
      · split at kept
        · rcases List.mem_cons.mp kept with rfl | kept
          · rcases List.mem_append.mp member with front | back
            · exact own (List.dropLast_subset _ front)
            · exact later List.mem_cons_self (List.mem_of_mem_tail back)
          · exact later (List.mem_cons_of_mem _ kept) member
        · exact apart kept
      · exact apart kept

theorem char_mem_signs {parts : List (List Char)} (member : Sign.char c ∈ signs parts) : ∃ part ∈ parts, c ∈ part := by
  induction parts with
  | nil => cases member
  | cons part rest ih =>
    cases rest with
    | nil =>
      rw [signs_single, List.mem_map] at member
      obtain ⟨d, found, same⟩ := member
      exact ⟨part, List.mem_cons_self, Sign.char.inj same ▸ found⟩
    | cons next others =>
      rw [signs_more, List.mem_append, List.mem_map, List.mem_cons] at member
      rcases member with ⟨d, found, same⟩ | same | later
      · exact ⟨part, List.mem_cons_self, Sign.char.inj same ▸ found⟩
      · cases same
      · exact (ih later).imp fun _ both => ⟨List.mem_cons_of_mem _ both.1, both.2⟩

-- What a piece for brackets stands for is listed in them.
theorem classPiece_listed (single : '!' ∉ body) (held : (classPiece body).holds c = true) : listed body c = true := by
  have plain : ¬body.head? = some negation := fun front => single (List.mem_of_head? front)
  have kept : (classPiece body) = .oneOf false (ranges (signs (dropEmptyRanges (parts body)))) := by
    unfold classPiece
    split
    · rename_i rest first
      obtain ⟨part, listed, member⟩ := char_mem_signs (c := '!') (by rw [first]; exact List.mem_cons_self)
      obtain ⟨part, listed, member⟩ := mem_dropEmptyRanges listed member
      exact absurd (mem_partsFrom listed member) single
    · rfl
  rw [kept] at held
  unfold parts at held
  rw [if_neg plain] at held
  exact (ranges_listed le_rfl).2 c (by simpa [Piece.holds] using held)

theorem classPiece_wild : classPiece body ≠ .char '/' ∧ classPiece body ≠ .anyRun := by
  unfold classPiece
  split <;> exact ⟨nofun, nofun⟩

/-! ### Slashes -/

-- The slashes that stand for themselves.
def slashes (g : Glob) : Nat := g.count (.char '/')

theorem slashes_cons {piece : Piece} : slashes (piece :: g) = slashes g + if piece = .char '/' then 1 else 0 := by
  unfold slashes
  rw [List.count_cons]
  simp

theorem mem_suffixes {α : Type} {s xs : List α} (found : s ∈ suffixes xs) : ∃ front, xs = front ++ s := by
  induction xs with
  | nil => exact ⟨[], (List.mem_singleton.mp found).symm⟩
  | cons x xs ih =>
    rcases List.mem_cons.mp found with rfl | later
    · exact ⟨[], rfl⟩
    · obtain ⟨front, rfl⟩ := ih later
      exact ⟨x :: front, rfl⟩

-- What one piece and the others stand for.
theorem accepts_cons {piece : Piece} (accepted : accepts (piece :: g) cs = true) :
    (piece = .anyRun ∧ ∃ front rest, cs = front ++ rest ∧ accepts g rest = true) ∨
      ∃ c rest, cs = c :: rest ∧ piece.holds c = true ∧ accepts g rest = true := by
  cases piece with
  | anyRun =>
    rw [accepts, List.any_eq_true] at accepted
    obtain ⟨rest, found, fits⟩ := accepted
    obtain ⟨front, rfl⟩ := mem_suffixes found
    exact .inl ⟨rfl, front, rest, rfl, fits⟩
  | char d =>
    cases cs with
    | nil => cases accepted
    | cons c rest =>
      rw [accepts, Bool.and_eq_true] at accepted
      · exact .inr ⟨c, rest, rfl, accepted⟩
      · exact nofun
  | anyChar =>
    cases cs with
    | nil => cases accepted
    | cons c rest =>
      rw [accepts, Bool.and_eq_true] at accepted
      · exact .inr ⟨c, rest, rfl, accepted⟩
      · exact nofun
  | oneOf negated ranges =>
    cases cs with
    | nil => cases accepted
    | cons c rest =>
      rw [accepts, Bool.and_eq_true] at accepted
      · exact .inr ⟨c, rest, rfl, accepted⟩
      · exact nofun

-- Every slash of a pattern takes one of the text.
theorem slashes_le (accepted : accepts g cs = true) : slashes g ≤ cs.count '/' := by
  induction g generalizing cs with
  | nil => exact Nat.zero_le _
  | cons piece g ih =>
    rw [slashes_cons]
    rcases accepts_cons accepted with ⟨rfl, front, rest, rfl, fits⟩ | ⟨c, rest, rfl, held, fits⟩
    · have less := ih fits
      rw [if_neg (by exact nofun), List.count_append]
      omega
    · have less := ih fits
      rw [List.count_cons]
      by_cases slash : piece = .char '/'
      · subst slash
        have same : c = '/' := of_decide_eq_true held
        simp [same, less]
      · rw [if_neg slash]
        omega

-- A wildcard for one character takes no slash, where the text has no more of them than the pattern.
theorem wild_level {piece : Piece} {text : List Char} (wild : piece ≠ .char '/') (fits : accepts g text = true)
    (level : (c :: text).count '/' = slashes (piece :: g)) : c ≠ '/' ∧ text.count '/' = slashes g := by
  have enough := slashes_le fits
  rw [slashes_cons, if_neg wild, List.count_cons] at level
  by_cases slash : c = '/'
  · rw [slash] at level
    simp at level
    omega
  · simp only [beq_iff_eq, slash, if_false] at level
    exact ⟨slash, level⟩

/-! ### Patterns and what they stand for -/

section Readings

open InlineProject.Ignore (Fits)

-- Patterns without exclusions, with brackets that list what they stand for.
structure Listing (pattern : List Char) : Prop where
  exclusion : '!' ∉ pattern
  negation : ¬['[', '^'] <:+: pattern
  named : ¬['[', ':'] <:+: pattern

theorem Listing.part (listing : Listing cs) (inside : pattern <:+: cs) : Listing pattern :=
  ⟨fun member => listing.exclusion (inside.subset member), fun found => listing.negation (found.trans inside),
    fun found => listing.named (found.trans inside)⟩

theorem Listing.tail {d : Char} (listing : Listing (d :: pattern)) : Listing pattern :=
  listing.part (List.suffix_cons _ _).isInfix

-- The brackets that a pattern begins with.
theorem Listing.brackets (listing : Listing ('[' :: (body ++ ']' :: behind))) :
    '!' ∉ body ∧ body.head? ≠ some '^' ∧ ¬['[', ':'] <:+: body ∧ Listing behind := by
  refine ⟨fun member => ?_, fun first => ?_, fun inside => ?_, ?_⟩
  · exact listing.exclusion (List.mem_cons_of_mem _ (List.mem_append_left _ member))
  · obtain ⟨rest, rfl⟩ := List.head?_eq_some_iff.mp first
    exact listing.negation (List.prefix_append ['[', '^'] _).isInfix
  · exact listing.named (inside.trans ((List.prefix_append body _).isInfix.trans (List.suffix_cons _ _).isInfix))
  · exact listing.tail.part ((List.suffix_cons _ _).trans (List.suffix_append _ _)).isInfix

theorem ofCharsFrom_bracket {rest : List Char} : ofCharsFrom (n + 1) ('[' :: rest) =
    match bracket? rest with
    | some (body, behind) => classPiece body :: ofCharsFrom n behind
    | none => .char '[' :: ofCharsFrom n rest := rfl

theorem ofCharsFrom_plain {d : Char} {rest : List Char} (plain : d ∉ ['*', '?', '[']) :
    ofCharsFrom (n + 1) (d :: rest) = .char d :: ofCharsFrom n rest := by
  simp only [List.mem_cons, List.not_mem_nil, or_false, not_or] at plain
  rw [ofCharsFrom, if_neg plain.1, if_neg plain.2.1, if_neg plain.2.2]

-- What a pattern accepts without a wildcard for a slash is what it stands for. The induction is on the pattern.
theorem fits_of_accepts (short : pattern.length ≤ n) (listing : Listing pattern)
    (closed : .char '[' ∉ ofCharsFrom n pattern) (accepted : accepts (ofCharsFrom n pattern) cs = true)
    (level : cs.count '/' = slashes (ofCharsFrom n pattern)) : Fits pattern cs := by
  have done (cs : List Char) (accepted : accepts [] cs = true) : Fits [] cs := by
    rw [List.isEmpty_iff.mp accepted]
    exact .nil
  induction n generalizing pattern cs with
  | zero =>
    obtain rfl := List.eq_nil_of_length_eq_zero (Nat.le_zero.mp short)
    exact done cs accepted
  | succ n ih =>
    cases pattern with
    | nil => exact done cs accepted
    | cons d rest =>
      have less : rest.length ≤ n := Nat.le_of_succ_le_succ short
      by_cases run : d = '*'
      · subst run
        have read : ofCharsFrom (n + 1) ('*' :: rest) = .anyRun :: ofCharsFrom n rest := rfl
        rw [read] at closed accepted level
        rcases accepts_cons accepted with ⟨_, front, text, rfl, fits⟩ | ⟨c, text, _, held, _⟩
        · have enough := slashes_le fits
          rw [slashes_cons, if_neg (by exact nofun), List.count_append] at level
          refine .run (List.count_eq_zero.mp (by omega)) (ih less listing.tail (fun member => ?_) fits (by omega))
          exact closed (List.mem_cons_of_mem _ member)
        · cases held
      by_cases any : d = '?'
      · subst any
        have read : ofCharsFrom (n + 1) ('?' :: rest) = .anyChar :: ofCharsFrom n rest := rfl
        rw [read] at closed accepted level
        rcases accepts_cons accepted with ⟨wild, _⟩ | ⟨c, text, rfl, held, fits⟩
        · cases wild
        · obtain ⟨slash, level⟩ := wild_level (by exact nofun) fits level
          exact .any slash (ih less listing.tail (fun member => closed (List.mem_cons_of_mem _ member)) fits level)
      by_cases opens : d = '['
      · subst opens
        rw [ofCharsFrom_bracket] at closed accepted level
        cases found : bracket? rest with
        | none =>
          rw [found] at closed
          exact absurd List.mem_cons_self closed
        | some parts =>
          obtain ⟨body, behind⟩ := parts
          obtain ⟨rfl, enclosed⟩ := bracket?_parts listing.tail.exclusion found
          obtain ⟨single, other, unnamed, listing⟩ := listing.brackets
          rw [found] at closed accepted level
          have shorter : behind.length ≤ n := by
            simp only [List.length_append, List.length_cons] at less
            omega
          rcases accepts_cons accepted with ⟨run, _⟩ | ⟨c, text, rfl, held, fits⟩
          · exact absurd run classPiece_wild.2
          · obtain ⟨slash, level⟩ := wild_level classPiece_wild.1 fits level
            exact .among enclosed other unnamed (classPiece_listed single held) slash
              (ih shorter listing (fun member => closed (List.mem_cons_of_mem _ member)) fits level)
      · have plain : d ∉ ['*', '?', '['] := by simp [run, any, opens]
        rw [ofCharsFrom_plain plain] at closed accepted level
        rcases accepts_cons accepted with ⟨wild, _⟩ | ⟨c, text, rfl, held, fits⟩
        · cases wild
        · obtain rfl : c = d := of_decide_eq_true held
          refine .same plain (ih less listing.tail (fun member => closed (List.mem_cons_of_mem _ member)) fits ?_)
          rw [slashes_cons, List.count_cons] at level
          by_cases slash : c = '/' <;> simp [slash] at level <;> exact level

-- What a pattern stands for has its slashes. The induction is on the reading.
theorem slashes_of_fits (short : pattern.length ≤ n) (listing : Listing pattern) (fits : Fits pattern cs) :
    cs.count '/' = slashes (ofCharsFrom n pattern) := by
  induction fits generalizing n with
  | nil => cases n <;> rfl
  | @same c pattern cs plain _ ih =>
    cases n with
    | zero => cases short
    | succ n =>
      rw [ofCharsFrom_plain plain, slashes_cons, List.count_cons, ih (Nat.le_of_succ_le_succ short) listing.tail]
      simp
  | @any c pattern cs flat _ ih =>
    cases n with
    | zero => cases short
    | succ n =>
      have read : ofCharsFrom (n + 1) ('?' :: pattern) = .anyChar :: ofCharsFrom n pattern := rfl
      rw [read, slashes_cons, List.count_cons, ih (Nat.le_of_succ_le_succ short) listing.tail]
      simp [flat]
  | @run front pattern cs flat _ ih =>
    cases n with
    | zero => cases short
    | succ n =>
      have read : ofCharsFrom (n + 1) ('*' :: pattern) = .anyRun :: ofCharsFrom n pattern := rfl
      rw [read, slashes_cons, List.count_append, List.count_eq_zero.mpr flat,
        ih (Nat.le_of_succ_le_succ short) listing.tail]
      simp
  | @among c body pattern cs enclosed _ _ _ flat _ ih =>
    obtain ⟨single, _, _, listing⟩ := listing.brackets
    cases n with
    | zero => cases short
    | succ n =>
      have shorter : pattern.length ≤ n := by
        simp only [List.length_append, List.length_cons] at short
        omega
      rw [ofCharsFrom_bracket, bracket?_enclosed enclosed single]
      dsimp only
      rw [slashes_cons, if_neg classPiece_wild.1, List.count_cons, ih shorter listing]
      simp [flat]
  | outside _ _ _ _ _ _ => exact absurd (List.prefix_append ['[', '^'] _).isInfix listing.negation

end Readings

end Glob

/-! ### Lines -/

namespace Ignore

variable {line path : List Char} {isDirectory : Bool} {p : Pattern}

theorem Pattern.lastName_flat : '/' ∉ lastName path := by
  unfold lastName
  rw [List.mem_reverse]
  exact fun member => absurd (List.mem_takeWhile_imp member) (by decide)

theorem withoutLast_prefix : withoutLast line <+: line := by
  unfold withoutLast
  split
  · exact List.dropLast_prefix _
  · exact List.prefix_rfl

-- Without further slashes at its end, a line loses one at most.
theorem withoutLast_eq (back : ¬['/', '/'] <:+ line) :
    (line.reverse.dropWhile Pattern.isSlash).reverse = withoutLast line := by
  unfold withoutLast
  rcases List.eq_nil_or_concat line with rfl | ⟨front, c, rfl⟩
  · rfl
  rw [List.concat_eq_append] at back ⊢
  rw [List.getLast?_concat, List.dropLast_concat, List.reverse_concat]
  by_cases slash : c = '/'
  · rw [slash, List.dropWhile_cons_of_pos (by rfl), if_pos rfl]
    rcases List.eq_nil_or_concat front with rfl | ⟨front, d, rfl⟩
    · rfl
    rw [List.concat_eq_append] at back ⊢
    have single : Pattern.isSlash d ≠ true := fun another => by
      rw [slash, of_decide_eq_true another, List.append_assoc] at back
      exact back (List.suffix_append _ _)
    rw [List.reverse_concat, List.dropWhile_cons_of_neg single, List.reverse_cons, List.reverse_reverse]
  · have other : Pattern.isSlash c ≠ true := fun same => slash (of_decide_eq_true same)
    rw [List.dropWhile_cons_of_neg other, if_neg fun same => slash (Option.some.inj same), List.reverse_cons,
      List.reverse_reverse]

theorem withoutFirst_eq (front : ¬['/', '/'] <+: line) :
    (withoutLast line).dropWhile Pattern.isSlash
      = if line.head? = some '/' then (withoutLast line).tail else withoutLast line := by
  have shorter : withoutLast line <+: line := withoutLast_prefix
  obtain ⟨rest, whole⟩ := shorter
  cases kept : withoutLast line with
  | nil => rw [List.dropWhile_nil, List.tail_nil, ite_self]
  | cons c more =>
    rw [kept] at whole
    rw [← whole, List.cons_append, List.head?_cons, List.tail_cons]
    by_cases slash : c = '/'
    · rw [slash, List.dropWhile_cons_of_pos (by rfl), if_pos rfl]
      cases more with
      | nil => rfl
      | cons d more =>
        have single : Pattern.isSlash d ≠ true := fun another => by
          rw [← whole, slash, of_decide_eq_true another] at front
          exact front (List.prefix_append ['/', '/'] _)
        exact List.dropWhile_cons_of_neg single
    · have other : Pattern.isSlash c ≠ true := fun same => slash (of_decide_eq_true same)
      rw [List.dropWhile_cons_of_neg other, if_neg fun same => slash (Option.some.inj same)]

-- What the pattern of a line is.
theorem ofLine?_parts (ordinary : Ordinary line) (parsed : Pattern.ofLine? line = some p) :
    line.head? ≠ some '#' ∧ p.glob.toList = (withoutLast line).dropWhile Pattern.isSlash ∧
      (p.directoryOnly = true ↔ line.getLast? = some '/') ∧ (p.rooted = true ↔ '/' ∈ withoutLast line) := by
  unfold Pattern.ofLine? at parsed
  rw [ordinary.bare] at parsed
  dsimp only at parsed
  rw [withoutLast_eq ordinary.back] at parsed
  split at parsed
  · cases parsed
  · rename_i kept
    cases parsed
    rw [Bool.or_eq_true, Bool.or_eq_true, not_or, not_or, decide_eq_true_eq] at kept
    refine ⟨kept.1.1, String.toList_ofList, ?_, List.contains_iff_mem⟩
    rw [Option.any_eq_true]
    refine ⟨?_, fun last => ⟨'/', last, rfl⟩⟩
    rintro ⟨c, last, slash⟩
    rw [last, of_decide_eq_true slash]

-- A pattern that accepts a path accepts what its line says, unless it is compared with paths and the path has more
-- slashes than the line.
theorem hidden_exact (ordinary : Ordinary line) (parsed : Pattern.ofLine? line = some p)
    (closed : .char '[' ∉ Glob.ofString p.glob) (hidden : p.accepts path isDirectory = true) :
    Rule line path isDirectory ↔ ¬(p.rooted = true ∧ slashes (Glob.ofString p.glob) < path.count '/') := by
  obtain ⟨noComment, glob, directoryOnly, rooted⟩ := ofLine?_parts ordinary parsed
  have listing : Listing p.glob.toList := by
    have whole : Listing line := ⟨ordinary.exclusion, ordinary.negation, ordinary.named⟩
    rw [glob]
    exact whole.part ((List.dropWhile_suffix _).isInfix.trans withoutLast_prefix.isInfix)
  unfold Pattern.accepts at hidden
  rw [Bool.and_eq_true, Bool.or_eq_true] at hidden
  obtain ⟨restricted, accepted⟩ := hidden
  have directory (last : line.getLast? = some '/') : isDirectory = true := by
    rw [directoryOnly.mpr last] at restricted
    exact restricted.resolve_right (by decide)
  have short : p.glob.toList.length ≤ p.glob.length := le_of_eq String.length_toList
  unfold Glob.ofString at closed accepted ⊢
  by_cases tied : p.rooted = true
  · rw [if_pos tied] at accepted
    have enough := slashes_le accepted
    have read := glob.trans (withoutFirst_eq ordinary.front)
    constructor
    · rintro rule ⟨-, more⟩
      have fits := rule.anchored (rooted.mp tied)
      rw [← read] at fits
      exact more.ne (slashes_of_fits short listing fits).symm
    · intro fewer
      have level : path.count '/' = slashes (ofCharsFrom p.glob.length p.glob.toList) :=
        le_antisymm (Nat.le_of_not_lt fun more => fewer ⟨tied, more⟩) enough
      refine ⟨noComment, directory, fun _ => ?_, fun loose => absurd (rooted.mp tied) loose⟩
      rw [← read]
      exact fits_of_accepts short listing closed accepted level
  · rw [if_neg tied] at accepted
    have flat : '/' ∉ withoutLast line := fun slash => tied (rooted.mpr slash)
    have read : p.glob.toList = withoutLast line := by
      rw [glob, List.dropWhile_eq_self_iff]
      intro some slash
      exact flat (of_decide_eq_true slash ▸ List.getElem_mem some)
    have none : (Pattern.lastName path).count '/' = 0 := List.count_eq_zero.mpr Pattern.lastName_flat
    have level : (Pattern.lastName path).count '/' = slashes (ofCharsFrom p.glob.length p.glob.toList) := by
      have enough := slashes_le accepted
      omega
    refine iff_of_true ⟨noComment, directory, fun slash => absurd slash flat, fun _ => ?_⟩ fun both => tied both.1
    rw [← read]
    exact fits_of_accepts short listing closed accepted level

-- A star that takes a slash hides a file below the directory that the line is about.
theorem hidden_exact_sources :
    Rule "src/[a-c]*.cs".toList "src/b1.cs".toList false ∧ ¬Rule "src/[a-c]*.cs".toList "src/b/1.cs".toList false := by
  have ordinary : Ordinary "src/[a-c]*.cs".toList := by constructor <;> decide
  have parsed : Pattern.ofLine? "src/[a-c]*.cs".toList = some ⟨"src/[a-c]*.cs", false, true⟩ := by decide
  have closed : .char '[' ∉ Glob.ofString "src/[a-c]*.cs" := by decide
  constructor
  · exact (hidden_exact ordinary parsed closed (by decide)).mpr (by decide)
  · exact fun rule => (hidden_exact ordinary parsed closed (by decide)).mp rule (by decide)

end Ignore
end InlineProject
