import InlineProject.Proofs.DocumentedHead
import InlineProject.Source.Directive
/-!
The lexemes at the head of a source text. Lines of a documentation comment at the head are one comment each, with
nothing but gaps between them.
-/

namespace InlineProject.Source

open DocLine

variable {cs front back gap rest : List Char} {l : DocLine} {lines : List DocLine} {fuel place n : Nat}
  {c : Char}

namespace Lexeme

/-! ### Single lexemes -/

theorem runLength_le {p : Char → Bool} : runLength p cs ≤ cs.length := (List.takeWhile_prefix p).length_le

theorem blockLength?_le (found : blockLength? cs = some n) : n ≤ cs.length := by
  induction cs using blockLength?.induct generalizing n with
  | case1 rest =>
    cases found
    simp
  | case2 c rest other ih =>
    rw [blockLength?.eq_2 _ _ other] at found
    obtain ⟨m, inner, rfl⟩ := Option.map_eq_some_iff.mp found
    have := ih inner
    rw [List.length_cons]
    omega
  | case3 => cases found

-- A comment is closed by its own marks or by the end of its line.
theorem first_comment (found : first c rest = (.comment, n)) :
    (n = lineLength (c :: rest) ∧ "//".toList <+: c :: rest) ∨
      (n ≤ (c :: rest).length ∧ "/*".toList <+: c :: rest) := by
  unfold first at found
  dsimp only at found
  split at found
  · cases found
  · split at found
    · cases found
    · split at found
      · rename_i marks
        cases found
        exact .inl ⟨rfl, List.isPrefixOf_iff_prefix.mp marks⟩
      · split at found
        · rename_i m closed
          cases found
          split at closed
          · rename_i marks
            have within := blockLength?_le closed
            rw [List.length_drop] at within
            have marks := List.isPrefixOf_iff_prefix.mp marks
            have long := marks.length_le
            change 2 ≤ (c :: rest).length at long
            exact .inr ⟨by omega, marks⟩
          · cases closed
        · split at found
          · cases found
          · split at found
            · cases found
            · split at found <;> cases found

theorem first_gap (gaps : isGap c = true) : first c rest = (.gap, runLength isGap (c :: rest)) := if_pos gaps

theorem first_line : first '/' ('/' :: rest) = (.comment, lineLength ('/' :: '/' :: rest)) := rfl

/-! ### Lexemes in a row -/

theorem allFrom_cons {x : Lexeme} (found : first c rest = (x, n)) :
    allFrom (fuel + 1) place (c :: rest)
      = (x, ⟨place, place + max n 1⟩) :: allFrom fuel (place + max n 1) ((c :: rest).drop (max n 1)) := by
  rw [allFrom, found]

theorem allFrom_start {x : Lexeme × Range} (listed : x ∈ allFrom fuel place cs) : place ≤ x.2.start := by
  induction fuel generalizing place cs with
  | zero => cases listed
  | succ fuel ih =>
    cases cs with
    | nil => cases listed
    | cons c rest =>
      rcases List.mem_cons.mp listed with rfl | later
      · exact Nat.le_refl _
      · exact Nat.le_trans (Nat.le_add_right _ _) (ih later)

theorem textOf_append : textOf (front ++ back) ⟨front.length, front.length + n⟩ = back.take n := by
  unfold textOf
  dsimp only
  rw [List.drop_take, List.drop_left, Nat.add_sub_cancel_left]

-- The first lexeme of a text as a place in a longer one.
theorem isComment_first (found : first c rest = (.comment, n)) :
    IsComment (front ++ c :: rest) ⟨front.length, front.length + max n 1⟩ := by
  have beyond : (front ++ c :: rest).drop front.length = c :: rest := List.drop_left
  have some : 1 ≤ (c :: rest).length := Nat.succ_pos _
  have inside (small : n ≤ (c :: rest).length) :
      Range.Within ⟨front.length, front.length + max n 1⟩ (front ++ c :: rest).length := by
    refine ⟨Nat.le_add_right _ _, ?_⟩
    rw [List.length_append]
    exact Nat.add_le_add_left (Nat.max_le.mpr ⟨small, some⟩) _
  rcases first_comment found with ⟨rfl, marks⟩ | ⟨small, marks⟩
  · refine ⟨inside runLength_le, .inr ⟨by rw [beyond]; exact marks, ?_⟩⟩
    have most : max (lineLength (c :: rest)) 1 = ((c :: rest).takeWhile (!isBreak ·)).length := by
      obtain ⟨more, same⟩ := marks
      unfold lineLength runLength
      rw [← same]
      exact Nat.max_eq_left (Nat.succ_pos _)
    rw [textOf_append, most, beyond]
    exact (List.prefix_iff_eq_take.mp (List.takeWhile_prefix _)).symm
  · exact ⟨inside small, .inl (by rw [beyond]; exact marks)⟩

theorem allFrom_comment (front : List Char) {r : Range} (listed : (.comment, r) ∈ allFrom fuel front.length back) :
    IsComment (front ++ back) r := by
  induction fuel generalizing front back with
  | zero => cases listed
  | succ fuel ih =>
    cases back with
    | nil => cases listed
    | cons c rest =>
      obtain ⟨⟨x, n⟩, found⟩ : ∃ x, first c rest = x := ⟨_, rfl⟩
      rw [allFrom_cons found] at listed
      rcases List.mem_cons.mp listed with here | later
      · obtain ⟨rfl, rfl⟩ := Prod.mk.inj here
        exact isComment_first found
      · by_cases inside : max n 1 ≤ (c :: rest).length
        · have length : (front ++ (c :: rest).take (max n 1)).length = front.length + max n 1 := by
            rw [List.length_append, List.length_take_of_le inside]
          have next := ih (front ++ (c :: rest).take (max n 1)) (by rw [length]; exact later)
          rwa [List.append_assoc, List.take_append_drop] at next
        · rw [List.drop_eq_nil_of_le (Nat.le_of_lt (Nat.lt_of_not_le inside))] at later
          cases fuel <;> cases later

-- What stands between two lexemes is one lexeme.
theorem allFrom_skip (place : Nat) (gaps : ∀ c ∈ gap, isGap c = true) (solid : back.takeWhile isGap = [])
    (enough : (gap ++ back).length ≤ fuel) :
    ∃ head left, allFrom fuel place (gap ++ back) = head ++ allFrom left (place + gap.length) back ∧
      (∀ x ∈ head, x.1 = .gap) ∧ back.length ≤ left := by
  cases gap with
  | nil => exact ⟨[], fuel, rfl, nofun, enough⟩
  | cons c more =>
    rw [List.length_append, List.length_cons] at enough
    obtain ⟨left, rfl⟩ := Nat.exists_eq_succ_of_ne_zero (n := fuel) (by omega)
    have run : runLength isGap (c :: (more ++ back)) = (c :: more).length := by
      unfold runLength
      rw [← List.cons_append, List.takeWhile_append_of_pos gaps, solid, List.append_nil]
    have most : max (c :: more).length 1 = (c :: more).length := Nat.max_eq_left (Nat.succ_pos _)
    refine ⟨[(.gap, ⟨place, place + (c :: more).length⟩)], left, ?_, ?_, by omega⟩
    · rw [List.cons_append, allFrom_cons (first_gap (gaps c List.mem_cons_self)), run, most, ← List.cons_append,
        List.drop_left]
      rfl
    · intro x listed
      rw [List.mem_singleton.mp listed]

theorem lineLength_ink (back : List Char) (single : ∀ c ∈ l.text, isBreak c = false) :
    lineLength (l.ink ++ (l.ending ++ back)) = l.ink.length := by
  have marks : ∀ c ∈ lineDocMark.toList, (!isBreak c) = true := by simp [lineDocMark, isBreak]
  have plain : ∀ c ∈ l.ink, (!isBreak c) = true := by
    intro c listed
    rcases List.mem_append.mp listed with mark | behind
    · exact marks c mark
    · split at behind
      · cases behind
      · rcases List.mem_cons.mp behind with rfl | inside
        · rfl
        · rw [single c inside]
          rfl
  have ends : (l.ending ++ back).takeWhile (!isBreak ·) = [] := by
    unfold ending
    split <;> rfl
  unfold lineLength runLength
  rw [List.takeWhile_append_of_pos plain, ends, List.append_nil]

theorem gaps_ending : ∀ c ∈ l.ending, isGap c = true := by
  unfold ending
  split <;> simp [isGap]

theorem isGap_of_isIndent (indents : isIndent c = true) : isGap c = true := by
  simp only [isIndent, Bool.or_eq_true, beq_iff_eq] at indents
  rcases indents with rfl | rfl <;> rfl

theorem allFrom_line (place : Nat) (single : ∀ c ∈ l.text, isBreak c = false)
    (enough : (l.ink ++ (l.ending ++ back)).length ≤ fuel) :
    ∃ left, allFrom fuel place (l.ink ++ (l.ending ++ back))
        = (.comment, ⟨place, place + l.ink.length⟩) :: allFrom left (place + l.ink.length) (l.ending ++ back) ∧
      (l.ending ++ back).length ≤ left := by
  obtain ⟨more, slashes⟩ : ∃ more, l.ink = '/' :: '/' :: more := ⟨_, rfl⟩
  have length := lineLength_ink back single
  rw [List.length_append] at enough
  rw [slashes] at enough length ⊢
  obtain ⟨left, rfl⟩ := Nat.exists_eq_succ_of_ne_zero (n := fuel) (by rw [List.length_cons] at enough; omega)
  refine ⟨left, ?_, by rw [List.length_cons] at enough; omega⟩
  have most : max ('/' :: '/' :: more).length 1 = ('/' :: '/' :: more).length := Nat.max_eq_left (Nat.succ_pos _)
  rw [List.cons_append, List.cons_append, allFrom_cons first_line, ← List.cons_append, ← List.cons_append, length, most,
    List.drop_left]

-- After a gap no lexeme starts before its end.
theorem allFrom_gap (place : Nat) (gaps : ∀ c ∈ gap, isGap c = true) (enough : (gap ++ back).length ≤ fuel) :
    ∃ heads later, allFrom fuel place (gap ++ back) = heads ++ later ∧ (∀ x ∈ heads, x.1 = .gap) ∧
      ∀ x ∈ later, place + gap.length ≤ x.2.start := by
  cases gap with
  | nil => exact ⟨[], _, rfl, nofun, fun x listed => allFrom_start listed⟩
  | cons c more =>
    obtain ⟨left, rfl⟩ := Nat.exists_eq_succ_of_ne_zero (n := fuel) (by rintro rfl; cases enough)
    have run : (c :: more).length ≤ runLength isGap (c :: (more ++ back)) := by
      unfold runLength
      rw [← List.cons_append, List.takeWhile_append_of_pos gaps, List.length_append]
      exact Nat.le_add_right _ _
    rw [List.cons_append, allFrom_cons (first_gap (gaps c List.mem_cons_self))]
    refine ⟨[_], _, rfl, fun x listed => by rw [List.mem_singleton.mp listed], fun x listed => ?_⟩
    have reached := allFrom_start listed
    omega

theorem no_comment {heads : List (Lexeme × Range)} (blank : ∀ x ∈ heads, x.1 = .gap) :
    heads.filter (·.1 = .comment) = [] := by
  refine List.filter_eq_nil_iff.mpr fun x listed => ?_
  rw [blank x listed]
  decide

-- The lines of a documentation comment are a comment each.
theorem allFrom_block (place : Nat) (single : ∀ l ∈ lines, ∀ c ∈ l.text, isBreak c = false) (gaps : ∀ c ∈ gap, isGap c = true)
    (enough : (gap ++ (block lines ++ rest)).length ≤ fuel) :
    ∃ heads later, allFrom fuel place (gap ++ (block lines ++ rest)) = heads ++ later ∧
      (∀ x ∈ heads, x.1 = .gap ∨ x.1 = .comment) ∧
      (heads.filter (·.1 = .comment)).map (·.2) = places (place + gap.length) lines ∧
      ∀ x ∈ later, place + gap.length + (block lines).length ≤ x.2.start := by
  induction lines generalizing gap fuel place with
  | nil =>
    obtain ⟨heads, later, read, blank, behind⟩ := allFrom_gap place gaps enough
    refine ⟨heads, later, read, fun x listed => .inl (blank x listed), ?_, behind⟩
    rw [no_comment blank]
    rfl
  | cons l lines ih =>
    have text : gap ++ (block (l :: lines) ++ rest)
        = gap ++ l.indent ++ (l.ink ++ (l.ending ++ (block lines ++ rest))) := by
      unfold block
      simp only [List.flatMap_cons, written, List.append_assoc]
    have between : ∀ c ∈ gap ++ l.indent, isGap c = true := by
      intro c listed
      rcases List.mem_append.mp listed with old | indent
      · exact gaps c old
      · exact isGap_of_isIndent (l.indents c indent)
    have whole : (block (l :: lines)).length
        = l.indent.length + l.ink.length + l.ending.length + (block lines).length := by
      unfold block
      simp only [List.flatMap_cons, written, List.length_append]
    rw [text] at enough ⊢
    obtain ⟨head, left, skipped, blank, enough'⟩ := allFrom_skip place between (by rfl) enough
    obtain ⟨left', line, enough''⟩ := allFrom_line (place + (gap ++ l.indent).length)
      (single l List.mem_cons_self) enough'
    obtain ⟨heads, later, rest_, kinds, comments, behind⟩ := ih (place + (gap ++ l.indent).length + l.ink.length)
      (fun l listed => single l (List.mem_cons_of_mem _ listed)) gaps_ending enough''
    refine ⟨head ++ (.comment, ⟨place + (gap ++ l.indent).length, place + (gap ++ l.indent).length + l.ink.length⟩) ::
      heads, later, ?_, ?_, ?_, ?_⟩
    · rw [skipped, line, rest_, List.append_assoc]
      rfl
    · intro x listed
      rcases List.mem_append.mp listed with first | next
      · exact .inl (blank x first)
      · rcases List.mem_cons.mp next with rfl | other
        · exact .inr rfl
        · exact kinds x other
    · rw [List.filter_append, no_comment blank, List.nil_append, List.filter_cons_of_pos rfl, List.map_cons, comments]
      simp only [places, written, List.length_append, Nat.add_assoc]
    · intro x listed
      have := behind x listed
      rw [List.length_append] at this
      omega

end Lexeme

/-! ### The grammar of the lexemes -/

theorem headComments_append {heads later : List (Lexeme × Range)} (kinds : ∀ x ∈ heads, x.1 = .gap ∨ x.1 = .comment) :
    headComments (heads ++ later) = (heads.filter (·.1 = .comment)).map (·.2) ++ headComments later := by
  unfold headComments
  rw [List.takeWhile_append_of_pos (by simpa using kinds), List.filter_append, List.map_append]

theorem headComments_mem {lexemes : List (Lexeme × Range)} {r : Range} (listed : r ∈ headComments lexemes) :
    (.comment, r) ∈ lexemes := by
  obtain ⟨⟨x, r⟩, found, rfl⟩ := List.mem_map.mp listed
  obtain ⟨taken, comment⟩ := List.mem_filter.mp found
  rw [← of_decide_eq_true comment]
  exact (List.takeWhile_prefix _).subset taken

theorem codeStart?_append {heads later : List (Lexeme × Range)} (kinds : ∀ x ∈ heads, x.1 = .gap ∨ x.1 = .comment) :
    codeStart? (heads ++ later) = codeStart? later := by
  have none : heads.find? (fun l => decide (l.1 ≠ .gap) && decide (l.1 ≠ .comment)) = none := by
    refine List.find?_eq_none.mpr fun x listed => ?_
    rcases kinds x listed with gap | comment
    · rw [gap]
      decide
    · rw [comment]
      decide
  unfold codeStart?
  rw [List.find?_append, none, Option.none_or]

theorem codeStart?_mem {lexemes : List (Lexeme × Range)} {start : Nat} (found : codeStart? lexemes = some start) :
    ∃ x ∈ lexemes, x.2.start = start := by
  obtain ⟨x, first, rfl⟩ := Option.map_eq_some_iff.mp found
  exact ⟨x, List.mem_of_find?_eq_some first, rfl⟩

-- By the lexemes of the language each line of a documentation comment at the head is a comment of its own.
theorem grammar_readsHead (single : ∀ l ∈ lines, ∀ c ∈ l.text, Lexeme.isBreak c = false) :
    grammar.ReadsHead lines rest := by
  have nothing : ∀ c ∈ ([] : List Char), Lexeme.isGap c = true := nofun
  have whole : ([] ++ (block lines ++ rest)).length ≤ (block lines ++ rest).length := Nat.le_refl _
  obtain ⟨heads, later, split, kinds, comments, behind⟩ := Lexeme.allFrom_block 0 single nothing whole
  have all : Lexeme.all (block lines ++ rest) = heads ++ later := split
  have zero : 0 + List.length (α := Char) [] = 0 := rfl
  rw [zero] at comments
  simp only [zero, Nat.zero_add] at behind
  have isComment {t : Tree} (listed : t ∈ (headComments (heads ++ later)).map fun r => Tree.node .comment r []) :
      IsComment (block lines ++ rest) t.range := by
    obtain ⟨r, found, rfl⟩ := List.mem_map.mp listed
    have there := headComments_mem found
    rw [← all] at there
    exact Lexeme.allFrom_comment [] there
  constructor
  · unfold grammar
    dsimp only [Tree.children]
    rw [all, headComments_append kinds, comments, codeStart?_append kinds, List.map_append, List.append_assoc]
    refine ⟨_, _, rfl, ?_, ?_, ?_⟩
    · rw [List.map_map]
      exact List.map_id _
    · intro t listed
      obtain ⟨r, _, rfl⟩ := List.mem_map.mp listed
      rfl
    · intro t listed
      rcases List.mem_append.mp listed with comment | code
      · obtain ⟨r, found, rfl⟩ := List.mem_map.mp comment
        exact behind _ (headComments_mem found)
      · obtain ⟨start, found, rfl⟩ := List.mem_map.mp code
        obtain ⟨x, there, rfl⟩ := codeStart?_mem (Option.mem_toList.mp found)
        exact behind x there
  · unfold grammar
    dsimp only [Tree.children]
    rw [all]
    intro t listed kind
    rcases List.mem_append.mp listed with comment | code
    · exact isComment comment
    · obtain ⟨start, _, rfl⟩ := List.mem_map.mp code
      cases kind

end InlineProject.Source
