import InlineProject.Proofs.OctetRanges
/-!
Lines among bytes, be they a text or not. Every byte is read as a character of its own, so that what a
range owns among them is what is known of ranges of characters. Two ranges that begin with ink and end
before their line break never own the same byte, and what they own meets exactly where one of them
begins the line behind the other one.
-/

namespace InlineProject.Source

variable {cs : List Char} {bytes : Octets.Bytes} {r s own other : Range} {i j : Nat}

/-! ### Bytes as characters -/

-- The bytes of a source, each as a character.
def letters (bytes : Octets.Bytes) : List Char := bytes.map Char.ofUInt8

theorem ofUInt8_injective {a b : UInt8} (same : Char.ofUInt8 a = Char.ofUInt8 b) : a = b := by
  have values : a.toUInt32.toNat = b.toUInt32.toNat := congrArg Char.toNat same
  rw [UInt8.toNat_toUInt32, UInt8.toNat_toUInt32] at values
  exact UInt8.toNat_inj.mp values

theorem ofUInt8_beq (a b : UInt8) : (Char.ofUInt8 a == Char.ofUInt8 b) = (a == b) := by
  rw [Bool.eq_iff_iff, beq_iff_eq, beq_iff_eq]
  exact ⟨ofUInt8_injective, congrArg Char.ofUInt8⟩

theorem isIndent_ofUInt8 : isIndent ∘ Char.ofUInt8 = Octets.isIndent := by
  funext b
  change (Char.ofUInt8 b == Char.ofUInt8 0x20 || Char.ofUInt8 b == Char.ofUInt8 0x09) = (b == 0x20 || b == 0x09)
  rw [ofUInt8_beq, ofUInt8_beq]

theorem startsLine_letters : startsLine (letters bytes) = Octets.startsLine bytes := by
  cases bytes with
  | nil => rfl
  | cons b rest => exact ofUInt8_beq b 0x0A

theorem breakLength?_letters : breakLength? (letters bytes) = Octets.breakLength? bytes := by
  fun_cases Octets.breakLength? bytes with
  | case1 rest => rfl
  | case2 rest => rfl
  | case3 => rfl
  | case4 other noReturn noFeed some =>
    unfold breakLength?
    split
    · rename_i text
      obtain ⟨first, more, rfl, return_, later⟩ := List.map_eq_cons_iff.mp text
      obtain ⟨second, last, rfl, feed, _⟩ := List.map_eq_cons_iff.mp later
      have first : first = 0x0D := ofUInt8_injective return_
      have second : second = 0x0A := ofUInt8_injective feed
      subst first second
      exact (noReturn last rfl).elim
    · rename_i text
      obtain ⟨first, more, rfl, feed, _⟩ := List.map_eq_cons_iff.mp text
      have first : first = 0x0A := ofUInt8_injective feed
      subst first
      exact (noFeed more rfl).elim
    · rename_i text
      exact (some (List.map_eq_nil_iff.mp text)).elim
    · rfl

-- What a range owns of some bytes is what it owns of their characters.
theorem extend_letters (bytes : Octets.Bytes) (r : Range) : Octets.extend bytes r = r.extend (letters bytes) := by
  have indents : ((((letters bytes).take r.start).reverse).takeWhile isIndent).length
      = (((bytes.take r.start).reverse).takeWhile Octets.isIndent).length := by
    rw [letters, ← List.map_take, ← List.map_reverse, List.takeWhile_map, List.length_map, isIndent_ofUInt8]
  have opens (n : Nat) : startsLine ((((letters bytes).take r.start).reverse).drop n)
      = Octets.startsLine (((bytes.take r.start).reverse).drop n) := by
    rw [letters, ← List.map_take, ← List.map_reverse, ← List.map_drop]
    exact startsLine_letters
  have blanks : (((letters bytes).drop r.stop).takeWhile isIndent).length
      = ((bytes.drop r.stop).takeWhile Octets.isIndent).length := by
    rw [letters, ← List.map_drop, List.takeWhile_map, List.length_map, isIndent_ofUInt8]
  have breaks : breakLength? (((letters bytes).drop r.stop).dropWhile isIndent)
      = Octets.breakLength? ((bytes.drop r.stop).dropWhile Octets.isIndent) := by
    rw [letters, ← List.map_drop, List.dropWhile_map, isIndent_ofUInt8]
    exact breakLength?_letters
  rw [extend_breaks]
  dsimp only
  rw [indents, opens, blanks, breaks]
  rfl

/-! ### Ranges that own nothing in common -/

-- A range that begins with ink, and whose last character is no line feed.
structure Solid (cs : List Char) (r : Range) : Prop where
  first : ∃ c, cs[r.start]? = some c ∧ isInk c = true
  filled : r.start < r.stop
  last : ∃ c, cs[r.stop - 1]? = some c ∧ c ≠ '\n'

def EndsBlank (cs : List Char) (r : Range) : Prop := ∃ c, cs[r.stop - 1]? = some c ∧ isIndent c = true

-- A line break, the first half of one, or the end.
def Stops (cs : List Char) (i : Nat) : Prop := ∀ c, cs[i]? = some c → c = '\r' ∨ c = '\n'

instance : Decidable (Solid cs r) :=
  decidable_of_iff (cs[r.start]?.any isInk = true ∧ r.start < r.stop ∧ cs[r.stop - 1]?.any (· != '\n') = true)
    ⟨fun ⟨first, filled, last⟩ => ⟨(Option.any_eq_true _ _).mp first, filled,
        ((Option.any_eq_true _ _).mp last).imp fun _ found => ⟨found.1, bne_iff_ne.mp found.2⟩⟩,
      fun solid => ⟨(Option.any_eq_true _ _).mpr solid.first, solid.filled,
        (Option.any_eq_true _ _).mpr (solid.last.imp fun _ found => ⟨found.1, bne_iff_ne.mpr found.2⟩)⟩⟩

instance : Decidable (EndsBlank cs r) := decidable_of_iff (cs[r.stop - 1]?.any isIndent = true) (Option.any_eq_true _ _)

instance : Decidable (Stops cs i) :=
  decidable_of_iff (cs[i]?.all (fun c => c == '\r' || c == '\n') = true) (by
    rw [Option.all_eq_true]
    simp only [Bool.or_eq_true, beq_iff_eq]
    exact Iff.rfl)

theorem Solid.within (solid : Solid cs r) : r.Within cs.length := by
  obtain ⟨c, here, _⟩ := solid.last
  have inside := (List.getElem?_eq_some_iff.mp here).1
  have filled := solid.filled
  exact ⟨Nat.le_of_lt filled, by omega⟩

theorem Solid.owns (solid : Solid cs r) : Owns cs r (r.extend cs) := extend_owns_within solid.within

-- No blank follows where a line stops, and no ink.
theorem stops_apart {c : Char} (stops : Stops cs i) (here : cs[i]? = some c) :
    isIndent c = false ∧ isInk c = false := by
  rcases stops c here with rfl | rfl <;> exact ⟨rfl, rfl⟩

-- The blanks in front of a range are none of the range before it.
theorem solid_before_blanks {start : Nat} (solid : Solid cs r) (stops : EndsBlank cs r → Stops cs r.stop)
    (solid' : Solid cs s) (before : r.stop ≤ s.start) (blanks : Blanks cs start s.start) : r.stop ≤ start := by
  have filled := solid.filled
  refine Nat.le_of_not_lt fun inside => ?_
  obtain ⟨c, here, blank⟩ := blanks (r.stop - 1) (by omega) (by omega)
  have closed := stops ⟨c, here, blank⟩
  rcases Nat.eq_or_lt_of_le before with meets | apart
  · obtain ⟨d, there, ink⟩ := solid'.first
    rw [← meets] at there
    have none := (stops_apart closed there).2
    rw [ink] at none
    cases none
  · obtain ⟨d, there, blank'⟩ := blanks r.stop (by omega) apart
    have none := (stops_apart closed there).1
    rw [blank'] at none
    cases none

theorem solid_owns_apart (solid : Solid cs r) (stops : EndsBlank cs r → Stops cs r.stop) (solid' : Solid cs s)
    (before : r.stop ≤ s.start) (first : Owns cs r own) (second : Owns cs s other) : own.stop ≤ other.start := by
  obtain ⟨c, here, ink⟩ := solid'.first
  have ahead := owns_stop_le_ink first here ink before
  by_cases alone : OpensLine cs s ∧ ClosesLine cs s
  · -- What `s` owns begins with its line, and `r` ends in a line before.
    have clear := solid_before_blanks solid stops solid' before second.indentation
    have filled := solid.filled
    rcases (second.alone alone.1 alone.2).1 with zero | feed
    · omega
    · obtain ⟨d, last, noFeed⟩ := solid.last
      have earlier : r.stop ≤ other.start - 1 := by
        rcases Nat.eq_or_lt_of_le clear with same | less
        · rw [← same, last] at feed
          exact absurd (Option.some.inj feed) noFeed
        · omega
      have ends := owns_stop_le_feed first feed earlier
      omega
  · rw [(second.shared alone).1]
    exact ahead

/-! ### Ranges that meet -/

-- A line feed, or a carriage return with a line feed, from one place to another.
def Breaks (cs : List Char) (i j : Nat) : Prop :=
  (j = i + 1 ∧ cs[i]? = some '\n') ∨ (j = i + 2 ∧ cs[i]? = some '\r' ∧ cs[i + 1]? = some '\n')

-- `r` stands alone on its line, and `s` is the first thing on the next one. `s` stands alone there too, or
-- it has no indentation.
structure Continues (cs : List Char) (r s : Range) : Prop where
  opens : OpensLine cs r
  next : ∃ i j, r.stop ≤ i ∧ Blanks cs r.stop i ∧ Breaks cs i j ∧ j ≤ s.start ∧ Blanks cs j s.start ∧
    (ClosesLine cs s ∨ j = s.start)

theorem Breaks.feed (breaks : Breaks cs i j) : i < j ∧ cs[j - 1]? = some '\n' := by
  rcases breaks with ⟨rfl, feed⟩ | ⟨rfl, _, feed⟩
  · exact ⟨Nat.lt_succ_self i, feed⟩
  · exact ⟨by omega, feed⟩

theorem Breaks.lineEnd (breaks : Breaks cs i j) : LineEnd cs i := by
  rcases breaks with ⟨_, feed⟩ | ⟨_, halves⟩
  · exact .inr (.inl feed)
  · exact .inr (.inr halves)

-- Of the places behind a range the first line feed is the one of its own line break.
theorem feed_of_breaks {k : Nat} (blanks : Blanks cs r.stop i) (breaks : Breaks cs i j) (behind : r.stop ≤ k)
    (feed : cs[k]? = some '\n') : j ≤ k + 1 := by
  have reached := blanks_stop_le blanks feed rfl behind
  rcases breaks with ⟨next, _⟩ | ⟨next, return_, _⟩
  · omega
  · have apart : i ≠ k := by
      rintro rfl
      rw [return_] at feed
      cases feed
    omega

-- What is owned up to a line break ends with it.
theorem owns_stop_of_breaks (owns : Owns cs r own) (opens : OpensLine cs r) (after : r.stop ≤ i)
    (blanks : Blanks cs r.stop i) (breaks : Breaks cs i j) : own.stop = j := by
  obtain ⟨later, feed⟩ := breaks.feed
  have inside := (List.getElem?_eq_some_iff.mp feed).1
  apply Nat.le_antisymm
  · have ends := owns_stop_le_feed owns feed (by omega)
    omega
  · rcases (owns.alone opens ⟨i, after, blanks, breaks.lineEnd⟩).2 with whole | ⟨past, last⟩
    · omega
    · have first := feed_of_breaks blanks breaks (by omega) last
      omega

-- What is owned from a line start on begins there.
theorem owns_start_of_line (owns : Owns cs s other) (before : j ≤ s.start) (starts : LineStart cs j)
    (blanks : Blanks cs j s.start) (ends : ClosesLine cs s ∨ j = s.start) : other.start = j := by
  have opens : OpensLine cs s := ⟨j, before, starts, blanks⟩
  by_cases closes : ClosesLine cs s
  · have begins := (owns.alone opens closes).1
    have front := owns.front
    apply Nat.le_antisymm
    · rcases begins with zero | feed
      · omega
      · refine Nat.le_of_not_lt fun later => ?_
        have outside := blanks_start_gt blanks feed rfl (by omega)
        omega
    · rcases starts with zero | feed
      · omega
      · refine Nat.le_of_not_lt fun earlier => ?_
        have outside := blanks_start_gt owns.indentation feed rfl (by omega)
        omega
  · have flush := ends.resolve_left closes
    rw [(owns.shared fun alone => closes alone.2).1, flush]

-- A range at whose end a line stops meets the next one only if it has this line to itself.
theorem owns_meets_alone (stops : Stops cs r.stop) (solid' : Solid cs s) (before : r.stop ≤ s.start)
    (first : Owns cs r own) (second : Owns cs s other) (meets : own.stop = other.start) :
    OpensLine cs r ∧ ClosesLine cs r := by
  refine Classical.byContradiction fun shares => ?_
  obtain ⟨c, here, ink⟩ := solid'.first
  have inside := (List.getElem?_eq_some_iff.mp here).1
  obtain ⟨_, blanks⟩ := first.shared shares
  have behind := first.stop_le
  have front := second.front
  -- The place where the line stops is no blank, so nothing behind it is owned.
  obtain ⟨d, there⟩ : ∃ d, cs[r.stop]? = some d := ⟨_, List.getElem?_eq_getElem (by omega)⟩
  obtain ⟨noBlank, noInk⟩ := stops_apart stops there
  have reached := blanks_stop_le blanks there noBlank (Nat.le_refl _)
  have passed := blanks_stop_le second.indentation there noBlank (by omega)
  have same : r.stop = s.start := by omega
  rw [← same, there] at here
  rw [Option.some.inj here, ink] at noInk
  cases noInk

theorem owns_meets_exact (stops : Stops cs r.stop) (solid' : Solid cs s) (before : r.stop ≤ s.start)
    (first : Owns cs r own) (second : Owns cs s other) : own.stop = other.start ↔ Continues cs r s := by
  constructor
  · intro meets
    obtain ⟨opens, closes⟩ := owns_meets_alone stops solid' before first second meets
    obtain ⟨c, here, _⟩ := solid'.first
    have inside := (List.getElem?_eq_some_iff.mp here).1
    have front := second.front
    obtain ⟨i, after, blanks, ending⟩ := first.behind
    have breaks : Breaks cs i own.stop := by
      rcases ending with same | broken
      · rcases (first.alone opens closes).2 with whole | ⟨past, feed⟩
        · omega
        · have reached := blanks_stop_le blanks feed rfl (by omega)
          omega
      · exact broken
    refine ⟨opens, i, own.stop, after, blanks, breaks, by omega, meets ▸ second.indentation, ?_⟩
    by_cases closes' : ClosesLine cs s
    · exact .inl closes'
    · right
      rw [meets]
      exact (second.shared fun alone => closes' alone.2).1
  · rintro ⟨opens, i, j, after, blanks, breaks, before', blanks', ends⟩
    rw [owns_stop_of_breaks first opens after blanks breaks]
    exact (owns_start_of_line second before' (.inr breaks.feed.2) blanks' ends).symm

end InlineProject.Source
