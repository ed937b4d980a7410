import InlineProject.Source.Span
/-!
What a comment or directive owns of a text: the blanks around it, and its indentation and line break
where nothing else stands on its lines.
-/

namespace InlineProject.Source

-- Only spaces and tabs stand from one place up to another.
def Blanks (cs : List Char) (start stop : Nat) : Prop :=
  ∀ i, start ≤ i → i < stop → ∃ c, cs[i]? = some c ∧ isIndent c = true

def LineStart (cs : List Char) (i : Nat) : Prop := i = 0 ∨ cs[i - 1]? = some '\n'

-- Nothing, a line feed, or a carriage return with a line feed.
def Ending (cs : List Char) (start stop : Nat) : Prop :=
  stop = start ∨ (stop = start + 1 ∧ cs[start]? = some '\n') ∨
    (stop = start + 2 ∧ cs[start]? = some '\r' ∧ cs[start + 1]? = some '\n')

def OpensLine (cs : List Char) (r : Range) : Prop :=
  ∃ start, start ≤ r.start ∧ LineStart cs start ∧ Blanks cs start r.start

def ClosesLine (cs : List Char) (r : Range) : Prop :=
  ∃ stop, r.stop ≤ stop ∧ Blanks cs r.stop stop ∧
    (stop = cs.length ∨ cs[stop]? = some '\n' ∨
      (cs[stop]? = some '\r' ∧ cs[stop + 1]? = some '\n'))

-- `own` is `r` with blanks around it and at most one line break behind it: whole lines where nothing
-- else stands on them, and just the blanks behind `r` where something does.
structure Owns (cs : List Char) (r own : Range) : Prop where
  front : own.start ≤ r.start
  indentation : Blanks cs own.start r.start
  behind : ∃ stop, r.stop ≤ stop ∧ Blanks cs r.stop stop ∧ Ending cs stop own.stop
  alone : OpensLine cs r → ClosesLine cs r →
    LineStart cs own.start ∧
      (own.stop = cs.length ∨ (r.stop < own.stop ∧ cs[own.stop - 1]? = some '\n'))
  shared : ¬(OpensLine cs r ∧ ClosesLine cs r) → own.start = r.start ∧ Blanks cs r.stop own.stop

namespace Owns

variable {cs : List Char} {r own : Range}

theorem stop_le (owns : Owns cs r own) : r.stop ≤ own.stop := by
  obtain ⟨stop, le, _, ending⟩ := owns.behind
  rcases ending with same | ⟨next, _⟩ | ⟨next, _⟩ <;> omega

end Owns

/-! ### Runs of blanks -/

section Runs

variable {α : Type} {p : α → Bool}

theorem getElem?_takeWhile {l : List α} {i : Nat} (below : i < (l.takeWhile p).length) :
    ∃ c, l[i]? = some c ∧ p c = true := by
  induction l generalizing i with
  | nil => cases below
  | cons c rest ih =>
    cases holds : p c with
    | false =>
      rw [List.takeWhile_cons_of_neg (by rw [holds]; exact Bool.false_ne_true)] at below
      cases below
    | true =>
      rw [List.takeWhile_cons_of_pos holds] at below
      cases i with
      | zero => exact ⟨c, rfl, holds⟩
      | succ i =>
        obtain ⟨found, here, good⟩ := ih (Nat.lt_of_succ_lt_succ below)
        exact ⟨found, here, good⟩

theorem getElem?_length_takeWhile {l : List α} {c : α}
    (next : l[(l.takeWhile p).length]? = some c) : p c = false := by
  induction l with
  | nil => cases next
  | cons head rest ih =>
    cases holds : p head with
    | false =>
      rw [List.takeWhile_cons_of_neg (by rw [holds]; exact Bool.false_ne_true)] at next
      cases next
      exact holds
    | true =>
      rw [List.takeWhile_cons_of_pos holds] at next
      exact ih next

theorem dropWhile_eq_drop (l : List α) : l.dropWhile p = l.drop (l.takeWhile p).length := by
  have parts : l.takeWhile p ++ l.dropWhile p = l := List.takeWhile_append_dropWhile
  calc l.dropWhile p
      = (l.takeWhile p ++ l.dropWhile p).drop (l.takeWhile p).length := List.drop_left.symm
    _ = l.drop (l.takeWhile p).length := by rw [parts]

end Runs

section Extend

variable {cs : List Char} {r : Range}

-- How many blanks stand before a range, and how many behind it.
def indentBefore (cs : List Char) (r : Range) : Nat :=
  ((cs.take r.start).reverse.takeWhile isIndent).length

def blanksBehind (cs : List Char) (r : Range) : Nat := ((cs.drop r.stop).takeWhile isIndent).length

theorem getElem?_before {i : Nat} (inside : r.start ≤ cs.length) (below : i < r.start) :
    (cs.take r.start).reverse[i]? = cs[r.start - 1 - i]? := by
  have length : (cs.take r.start).length = r.start := List.length_take_of_le inside
  rw [List.getElem?_reverse (by rw [length]; exact below), length,
    List.getElem?_take_of_lt (by omega)]

theorem indentBefore_le (inside : r.start ≤ cs.length) : indentBefore cs r ≤ r.start := by
  have le := (List.takeWhile_prefix (p := isIndent) (l := (cs.take r.start).reverse)).length_le
  rw [List.length_reverse, List.length_take_of_le inside] at le
  exact le

theorem blanks_before (inside : r.start ≤ cs.length) :
    Blanks cs (r.start - indentBefore cs r) r.start := by
  intro i above below
  have le := indentBefore_le inside
  obtain ⟨c, here, blank⟩ := getElem?_takeWhile (p := isIndent) (l := (cs.take r.start).reverse)
    (i := r.start - 1 - i) (by change _ < indentBefore cs r; omega)
  rw [getElem?_before inside (by omega)] at here
  rw [show r.start - 1 - (r.start - 1 - i) = i by omega] at here
  exact ⟨c, here, blank⟩

theorem blanks_behind : Blanks cs r.stop (r.stop + blanksBehind cs r) := by
  intro i above below
  obtain ⟨c, here, blank⟩ := getElem?_takeWhile (p := isIndent) (l := cs.drop r.stop)
    (i := i - r.stop) (by change _ < blanksBehind cs r; omega)
  rw [List.getElem?_drop, show r.stop + (i - r.stop) = i by omega] at here
  exact ⟨c, here, blank⟩

theorem blanks_text {j n : Nat} (blanks : Blanks cs j (j + n)) :
    ∀ c ∈ (cs.drop j).take n, isIndent c = true := by
  intro c member
  obtain ⟨i, at_⟩ := List.mem_iff_getElem?.mp member
  have below : i < n := by
    apply Nat.lt_of_not_le
    intro beyond
    rw [List.getElem?_take_eq_none beyond] at at_
    cases at_
  obtain ⟨d, here, blank⟩ := blanks (j + i) (Nat.le_add_right _ _) (by omega)
  rw [List.getElem?_take_of_lt below, List.getElem?_drop, here] at at_
  rwa [← Option.some.inj at_]

-- Blanks end where a character stands that is none.
theorem blanks_stop_le {start stop i : Nat} {c : Char} (blanks : Blanks cs start stop)
    (here : cs[i]? = some c) (ink : isIndent c = false) (above : start ≤ i) : stop ≤ i := by
  refine Nat.le_of_not_lt fun below => ?_
  obtain ⟨found, same, blank⟩ := blanks i above below
  rw [here] at same
  cases same
  rw [ink] at blank
  cases blank

theorem blanks_start_gt {start stop i : Nat} {c : Char} (blanks : Blanks cs start stop)
    (here : cs[i]? = some c) (ink : isIndent c = false) (below : i < stop) : i < start := by
  refine Nat.lt_of_not_le fun above => ?_
  exact Nat.not_le_of_lt below (blanks_stop_le blanks here ink above)

theorem startsLine_exact (inside : r.start ≤ cs.length) :
    startsLine ((cs.take r.start).reverse.drop (indentBefore cs r)) = true ↔
      LineStart cs (r.start - indentBefore cs r) := by
  have le := indentBefore_le inside
  unfold LineStart
  rcases Nat.lt_or_ge (indentBefore cs r) r.start with before | whole
  · have next : ((cs.take r.start).reverse.drop (indentBefore cs r))[0]?
        = cs[r.start - indentBefore cs r - 1]? := by
      rw [List.getElem?_drop, Nat.add_zero, getElem?_before inside before]
      congr 1
      omega
    have positive : r.start - indentBefore cs r ≠ 0 := by omega
    cases rest : (cs.take r.start).reverse.drop (indentBefore cs r) with
    | nil =>
      have short := congrArg List.length rest
      rw [List.length_drop, List.length_reverse, List.length_take_of_le inside] at short
      simp only [List.length_nil] at short
      omega
    | cons c tail =>
      rw [rest] at next
      rw [← next]
      simp [startsLine, positive]
  · have none : (cs.take r.start).reverse.drop (indentBefore cs r) = [] := by
      apply List.drop_eq_nil_of_le
      rw [List.length_reverse, List.length_take_of_le inside]
      exact whole
    rw [none]
    simp only [startsLine, true_iff]
    exact .inl (by omega)

theorem opensLine_exact (inside : r.start ≤ cs.length) :
    OpensLine cs r ↔ LineStart cs (r.start - indentBefore cs r) := by
  have le := indentBefore_le inside
  constructor
  · rintro ⟨start, before, starts, blanks⟩
    -- The blanks that the code counts go exactly as far as those of the statement.
    have same : r.start - indentBefore cs r = start := by
      apply Nat.le_antisymm
      · refine Nat.le_of_not_lt fun later => ?_
        obtain ⟨c, here, blank⟩ := blanks (r.start - indentBefore cs r - 1) (by omega) (by omega)
        have next : (cs.take r.start).reverse[indentBefore cs r]? = some c := by
          rw [getElem?_before inside (by omega), ← here]
          congr 1
          omega
        rw [getElem?_length_takeWhile next] at blank
        cases blank
      · rcases starts with rfl | feed
        · exact Nat.zero_le _
        · refine Nat.le_of_not_lt fun earlier => ?_
          have outside := blanks_start_gt (blanks_before inside) feed rfl (by omega)
          omega
    rw [same]
    exact starts
  · intro starts
    exact ⟨_, Nat.sub_le _ _, starts, blanks_before inside⟩

theorem getElem?_behind (i : Nat) :
    ((cs.drop r.stop).dropWhile isIndent)[i]? = cs[r.stop + blanksBehind cs r + i]? := by
  rw [dropWhile_eq_drop, List.getElem?_drop, List.getElem?_drop]
  congr 1
  unfold blanksBehind
  omega

-- Where a line can end behind a place.
def LineEnd (cs : List Char) (i : Nat) : Prop :=
  i = cs.length ∨ cs[i]? = some '\n' ∨ (cs[i]? = some '\r' ∧ cs[i + 1]? = some '\n')

theorem blanksBehind_le (within : r.stop ≤ cs.length) :
    r.stop + blanksBehind cs r ≤ cs.length := by
  have le := (List.takeWhile_prefix (p := isIndent) (l := cs.drop r.stop)).length_le
  rw [List.length_drop] at le
  unfold blanksBehind
  omega

theorem closesLine_exact (within : r.stop ≤ cs.length) :
    ClosesLine cs r ↔ LineEnd cs (r.stop + blanksBehind cs r) := by
  have le := blanksBehind_le within
  constructor
  · rintro ⟨stop, behind, blanks, ends⟩
    have same : r.stop + blanksBehind cs r = stop := by
      apply Nat.le_antisymm
      · rcases ends with whole | feed | ⟨return_, _⟩
        · rw [whole]; exact le
        · exact blanks_stop_le blanks_behind feed rfl behind
        · exact blanks_stop_le blanks_behind return_ rfl behind
      · refine Nat.le_of_not_lt fun earlier => ?_
        obtain ⟨c, here, blank⟩ := blanks (r.stop + blanksBehind cs r) (by omega) earlier
        have next : (cs.drop r.stop)[blanksBehind cs r]? = some c := by
          rw [List.getElem?_drop]
          exact here
        rw [getElem?_length_takeWhile next] at blank
        cases blank
    rw [same]
    exact ends
  · intro ends
    exact ⟨_, Nat.le_add_right _ _, blanks_behind, ends⟩

theorem extend_shared (inside : r.start ≤ cs.length) (shares : ¬OpensLine cs r) :
    r.extend cs = ⟨r.start, r.stop + blanksBehind cs r⟩ := by
  have started : startsLine ((cs.take r.start).reverse.drop (indentBefore cs r)) ≠ true :=
    fun starts => shares ((opensLine_exact inside).mpr ((startsLine_exact inside).mp starts))
  exact if_neg started

theorem cons_of_getElem?_zero {l : List Char} {c : Char} (first : l[0]? = some c) :
    ∃ rest, l = c :: rest := by
  cases l with
  | nil => cases first
  | cons head rest => cases first; exact ⟨rest, rfl⟩

theorem extend_broken (within : r.stop ≤ cs.length)
    (broken : ¬ClosesLine cs r) : r.extend cs = ⟨r.start, r.stop + blanksBehind cs r⟩ := by
  have open_ : ¬LineEnd cs (r.stop + blanksBehind cs r) :=
    fun ends => broken ((closesLine_exact within).mpr ends)
  have le := blanksBehind_le within
  have at_ (i : Nat) : ((cs.drop r.stop).dropWhile isIndent)[i]?
      = cs[r.stop + blanksBehind cs r + i]? := getElem?_behind i
  unfold Range.extend
  dsimp only
  split
  · split
    · rename_i rest shape
      rw [shape] at at_
      exact absurd (.inr (.inr ⟨(at_ 0).symm, (at_ 1).symm⟩)) open_
    · rename_i rest shape
      rw [shape] at at_
      exact absurd (.inr (.inl (at_ 0).symm)) open_
    · rename_i shape
      rw [shape] at at_
      refine absurd (.inl (Nat.le_antisymm le ?_)) open_
      exact List.getElem?_eq_none_iff.mp (at_ 0).symm
    · rfl
  · rfl

-- A range that has its lines to itself.
theorem extend_alone (inside : r.start ≤ cs.length) (within : r.stop ≤ cs.length)
    (opens : OpensLine cs r) (closes : ClosesLine cs r) :
    ∃ stop, r.extend cs = ⟨r.start - indentBefore cs r, stop⟩ ∧
      Ending cs (r.stop + blanksBehind cs r) stop ∧
      (stop = cs.length ∨ (r.stop < stop ∧ cs[stop - 1]? = some '\n')) := by
  have started : startsLine ((cs.take r.start).reverse.drop
      ((cs.take r.start).reverse.takeWhile isIndent).length) = true :=
    (startsLine_exact inside).mpr ((opensLine_exact inside).mp opens)
  have at_ (i : Nat) : ((cs.drop r.stop).dropWhile isIndent)[i]?
      = cs[r.stop + blanksBehind cs r + i]? := getElem?_behind i
  unfold Range.extend
  dsimp only
  rw [if_pos started]
  rcases (closesLine_exact within).mp closes with whole | feed | ⟨return_, feed⟩
  · have shape : (cs.drop r.stop).dropWhile isIndent = [] := by
      rw [dropWhile_eq_drop, List.drop_drop]
      exact List.drop_eq_nil_of_le (Nat.le_of_eq whole.symm)
    rw [shape]
    exact ⟨_, rfl, .inl rfl, .inl whole⟩
  · obtain ⟨rest, shape⟩ := cons_of_getElem?_zero ((at_ 0).trans feed)
    rw [shape]
    exact ⟨_, rfl, .inr (.inl ⟨rfl, feed⟩), .inr ⟨by omega, feed⟩⟩
  · obtain ⟨rest, shape⟩ := cons_of_getElem?_zero ((at_ 0).trans return_)
    have second := (at_ 1).trans feed
    rw [shape, List.getElem?_cons_succ] at second
    obtain ⟨rest, rfl⟩ := cons_of_getElem?_zero second
    rw [shape]
    exact ⟨_, rfl, .inr (.inr ⟨rfl, return_, feed⟩), .inr ⟨by omega, feed⟩⟩

theorem extend_owns (inside : r.start ≤ cs.length) (within : r.stop ≤ cs.length) :
    Owns cs r (r.extend cs) := by
  by_cases alone : OpensLine cs r ∧ ClosesLine cs r
  · obtain ⟨stop, same, ending, whole⟩ := extend_alone inside within alone.1 alone.2
    rw [same]
    refine ⟨Nat.sub_le _ _, blanks_before inside,
      ⟨_, Nat.le_add_right _ _, blanks_behind, ending⟩, ?_, ?_⟩
    · intro _ _
      exact ⟨(opensLine_exact inside).mp alone.1, whole⟩
    · intro shares
      exact absurd alone shares
  · have plain : r.extend cs = ⟨r.start, r.stop + blanksBehind cs r⟩ := by
      by_cases opens : OpensLine cs r
      · exact extend_broken within fun closes => alone ⟨opens, closes⟩
      · exact extend_shared inside opens
    rw [plain]
    refine ⟨Nat.le_refl _, ?_, ⟨_, Nat.le_add_right _ _, blanks_behind, .inl rfl⟩, ?_, ?_⟩
    · intro i above below
      exact absurd below (Nat.not_lt_of_le above)
    · intro opens closes
      exact absurd ⟨opens, closes⟩ alone
    · intro _
      exact ⟨rfl, blanks_behind⟩

theorem owns_stop_le_length {own : Range} (within : r.stop ≤ cs.length) (owns : Owns cs r own) :
    own.stop ≤ cs.length := by
  obtain ⟨stop, behind, blanks, ending⟩ := owns.behind
  have inside {i : Nat} {c : Char} (here : cs[i]? = some c) : i < cs.length :=
    (List.getElem?_eq_some_iff.mp here).1
  have le : stop ≤ cs.length := by
    rcases Nat.eq_or_lt_of_le behind with same | later
    · omega
    · obtain ⟨c, here, _⟩ := blanks (stop - 1) (by omega) (by omega)
      have := inside here
      omega
  rcases ending with same | ⟨same, feed⟩ | ⟨same, _, feed⟩
  · omega
  · have := inside feed
    omega
  · have := inside feed
    omega

end Extend

/-! ### Ranges side by side -/

section Neighbours

variable {cs : List Char} {r s own other : Range}

def isInk (c : Char) : Bool := !isIndent c && c != '\n' && c != '\r'

theorem isInk_parts {c : Char} (ink : isInk c = true) : isIndent c = false ∧ c ≠ '\n' ∧ c ≠ '\r' := by
  simp only [isInk, Bool.and_eq_true, bne_iff_ne, Bool.not_eq_true'] at ink
  exact ⟨ink.1.1, ink.1.2, ink.2⟩

-- What a range owns behind it ends before the next ink.
theorem owns_stop_le_ink {i : Nat} {c : Char} (owns : Owns cs r own) (here : cs[i]? = some c)
    (ink : isInk c = true) (behind : r.stop ≤ i) : own.stop ≤ i := by
  obtain ⟨notBlank, notFeed, notReturn⟩ := isInk_parts ink
  obtain ⟨stop, _, blanks, ending⟩ := owns.behind
  have le : stop ≤ i := blanks_stop_le blanks here notBlank behind
  have apart {j : Nat} {d : Char} (there : cs[j]? = some d) (differs : c ≠ d) : j ≠ i := by
    rintro rfl
    rw [here] at there
    exact differs (Option.some.inj there)
  rcases ending with same | ⟨same, feed⟩ | ⟨same, return_, feed⟩
  · omega
  · have := apart feed notFeed
    omega
  · have := apart return_ notReturn
    have := apart feed notFeed
    omega

-- It ends with the next line feed at the latest.
theorem owns_stop_le_feed {i : Nat} (owns : Owns cs r own) (feed : cs[i]? = some '\n')
    (behind : r.stop ≤ i) : own.stop ≤ i + 1 := by
  obtain ⟨stop, _, blanks, ending⟩ := owns.behind
  have le : stop ≤ i := blanks_stop_le blanks feed rfl behind
  rcases ending with same | ⟨same, _⟩ | ⟨same, return_, _⟩
  · omega
  · omega
  · have apart : stop ≠ i := by
      rintro rfl
      rw [return_] at feed
      cases feed
    omega

-- Documentation lines from `hull.start` to `hull.stop`: what each of them owns begins where that of
-- the one before ends.
inductive Chain (cs : List Char) : List Range → Range → Range → Prop where
  | one {r own : Range} (owns : Owns cs r own) : Chain cs [r] r own
  | more {rs : List Range} {hull own r next : Range} (before : Chain cs rs hull own)
      (owns : Owns cs r next) (meets : own.stop = next.start) :
      Chain cs (rs ++ [r]) ⟨hull.start, r.stop⟩ ⟨own.start, next.stop⟩

-- A comment that runs to the end of its line.
structure WholeLine (cs : List Char) (r : Range) : Prop where
  first : ∃ c, cs[r.start]? = some c ∧ isInk c = true
  closes : ClosesLine cs r

theorem Chain.closes {rs : List Range} {hull : Range} (chain : Chain cs rs hull own)
    (lines : ∀ r ∈ rs, WholeLine cs r) : ClosesLine cs hull := by
  cases chain with
  | one => exact (lines _ (List.mem_singleton.mpr rfl)).closes
  | more => exact (lines _ (List.mem_append_right _ (List.mem_singleton.mpr rfl))).closes

-- A line that follows something on its own line leaves its line break to nobody, so that the next
-- one cannot begin there.
theorem whole_lines_open {hull : Range} (owns : Owns cs hull own) (closes : ClosesLine cs hull)
    (line : WholeLine cs s) (next : Owns cs s other) (meets : own.stop = other.start) :
    OpensLine cs hull := by
  refine Classical.byContradiction fun shares => ?_
  obtain ⟨_, blanks⟩ := owns.shared fun alone => shares alone.1
  obtain ⟨c, here, ink⟩ := line.first
  obtain ⟨notBlank, notFeed, notReturn⟩ := isInk_parts ink
  obtain ⟨stop, behind, run, ends⟩ := closes
  have front := next.front
  have le := owns.stop_le
  have above : stop ≤ s.start := blanks_stop_le run here notBlank (by omega)
  -- The end of the line is no blank, and it is not the ink of the next comment.
  have passed {d : Char} (there : cs[stop]? = some d) (blankless : isIndent d = false) :
      stop = s.start := by
    have reached : own.stop ≤ stop := blanks_stop_le blanks there blankless behind
    have inside := blanks_stop_le next.indentation there blankless (by omega)
    omega
  rcases ends with whole | feed | ⟨return_, _⟩
  · have inside := (List.getElem?_eq_some_iff.mp here).1
    omega
  · rw [← passed feed rfl, feed] at here
    exact notFeed (Option.some.inj here).symm
  · rw [← passed return_ rfl, return_] at here
    exact notReturn (Option.some.inj here).symm

-- Documentation lines own together what a single comment in their place would own.
theorem Chain.owns {rs : List Range} {hull : Range} (chain : Chain cs rs hull own)
    (lines : ∀ r ∈ rs, WholeLine cs r) : Owns cs hull own := by
  induction chain with
  | one owns => exact owns
  | more before next meets ih =>
    rename_i rs hull own r other
    have lines' : ∀ r ∈ rs, WholeLine cs r := fun r member => lines r (List.mem_append_left _ member)
    have line : WholeLine cs r :=
      lines r (List.mem_append_right _ (List.mem_singleton.mpr rfl))
    have owns := ih lines'
    have closes := before.closes lines'
    have opens : OpensLine cs hull := whole_lines_open owns closes line next meets
    obtain ⟨starts, ends⟩ := owns.alone opens closes
    -- The next line starts where this one has ended.
    have opens' : OpensLine cs r := by
      refine ⟨other.start, next.front, ?_, next.indentation⟩
      rcases ends with whole | ⟨_, feed⟩
      · obtain ⟨c, here, _⟩ := line.first
        have inside := (List.getElem?_eq_some_iff.mp here).1
        have front := next.front
        omega
      · rw [← meets]
        exact .inr feed
    refine ⟨owns.front, owns.indentation, next.behind, ?_, ?_⟩
    · intro _ _
      exact ⟨starts, (next.alone opens' line.closes).2⟩
    · intro shares
      exact absurd ⟨opens, line.closes⟩ shares

end Neighbours

end InlineProject.Source
