import InlineProject.Proofs.OwnedLines
import InlineProject.Source.Tree
/-!
The spans that make up a source file. They follow each other without a gap from the start of the text
to its end, whatever places the comments and directives have inside of it, and each of them that is
no code is what one directive owns, or what one or several comments own.
-/

namespace InlineProject.Source

def Range.Within (r : Range) (length : Nat) : Prop := r.start ≤ r.stop ∧ r.stop ≤ length

theorem owns_within {cs : List Char} {r own : Range} (within : r.Within cs.length)
    (owns : Owns cs r own) : own.Within cs.length := by
  have front := owns.front
  have behind := owns.stop_le
  have ordered := within.1
  exact ⟨by omega, owns_stop_le_length within.2 owns⟩

theorem extend_owns_within {cs : List Char} {r : Range} (within : r.Within cs.length) :
    Owns cs r (r.extend cs) :=
  extend_owns (Nat.le_trans within.1 within.2) within.2

/-! ### Spans in a row -/

-- Spans one after another from a place up to the end.
def Tiled (stop : Nat) : Nat → List Span → Prop
  | start, [] => start = stop
  | start, s :: rest =>
      s.range.start = start ∧ start ≤ s.range.stop ∧ Tiled stop s.range.stop rest

theorem tiled_le {stop start : Nat} {spans : List Span} (tiled : Tiled stop start spans) :
    start ≤ stop := by
  induction spans generalizing start with
  | nil => exact Nat.le_of_eq tiled
  | cons s rest ih => exact Nat.le_trans tiled.2.1 (ih tiled.2.2)

theorem tiled_shift {stop start : Nat} {spans : List Span} (k : Nat)
    (tiled : Tiled stop start spans) :
    Tiled (stop + k) (start + k) (spans.map fun s => s.shift k) := by
  induction spans generalizing start with
  | nil => exact congrArg (· + k) tiled
  | cons s rest ih =>
    obtain ⟨starts, ordered, later⟩ := tiled
    exact ⟨congrArg (· + k) starts, Nat.add_le_add_right ordered k, ih later⟩

-- Spans that lie in the text are enough: those that overlap are passed over.
theorem tilesFrom_tiled {length cursor : Nat} {spans : List Span} (inside : cursor ≤ length)
    (within : ∀ s ∈ spans, s.range.Within length) :
    Tiled length cursor (tilesFrom length cursor spans) := by
  induction spans generalizing cursor with
  | nil =>
    unfold tilesFrom
    split
    · exact ⟨rfl, inside, rfl⟩
    · exact Nat.le_antisymm inside (Nat.le_of_not_lt ‹_›)
  | cons s rest ih =>
    have here := within s List.mem_cons_self
    have later : ∀ t ∈ rest, t.range.Within length :=
      fun t member => within t (List.mem_cons_of_mem _ member)
    unfold tilesFrom
    split
    · exact ih inside later
    · have own : Tiled length s.range.stop (tilesFrom length s.range.stop rest) := ih here.2 later
      dsimp only
      split
      · exact ⟨rfl, Nat.le_of_lt ‹_›, rfl, here.1, own⟩
      · exact ⟨by omega, by have := here.1; omega, own⟩

theorem tilesFrom_mem {length cursor : Nat} {spans : List Span} {s : Span}
    (member : s ∈ tilesFrom length cursor spans) : s.kind = .code ∨ s ∈ spans := by
  induction spans generalizing cursor with
  | nil =>
    unfold tilesFrom at member
    split at member
    · rw [List.mem_singleton.mp member]
      exact .inl rfl
    · cases member
  | cons t rest ih =>
    have behind {cursor : Nat} (found : s ∈ tilesFrom length cursor rest) :
        s.kind = .code ∨ s ∈ t :: rest :=
      (ih found).imp id (List.mem_cons_of_mem _)
    unfold tilesFrom at member
    split at member
    · exact behind member
    · have own (found : s ∈ t :: tilesFrom length t.range.stop rest) :
          s.kind = .code ∨ s ∈ t :: rest := by
        rcases List.mem_cons.mp found with rfl | later
        · exact .inr List.mem_cons_self
        · exact behind later
      dsimp only at member
      split at member
      · rcases List.mem_cons.mp member with rfl | found
        · exact .inl rfl
        · exact own found
      · exact own member

/-! ### Spans in order -/

theorem insert_perm (s : Span) (spans : List Span) : (s.insert spans).Perm (s :: spans) := by
  induction spans with
  | nil => exact List.Perm.refl _
  | cons other rest ih =>
    unfold Span.insert
    split
    · exact List.Perm.refl _
    · exact (ih.cons other).trans (List.Perm.swap s other rest)

theorem sorted_perm (spans : List Span) : (Span.sorted spans).Perm spans := by
  have from_ (done : List Span) :
      (spans.foldl (fun done s => s.insert done) done).Perm (done ++ spans) := by
    induction spans generalizing done with
    | nil => rw [List.append_nil]; exact List.Perm.refl _
    | cons s rest ih =>
      have moved : (s.insert done ++ rest).Perm (done ++ s :: rest) :=
        ((insert_perm s done).append_right rest).trans List.perm_middle.symm
      exact (ih (s.insert done)).trans moved
  exact from_ []

theorem insert_ordered {s : Span} {spans : List Span}
    (ordered : spans.Pairwise fun a b => a.range.start ≤ b.range.start) :
    (s.insert spans).Pairwise fun a b => a.range.start ≤ b.range.start := by
  induction spans with
  | nil => exact List.pairwise_singleton _ _
  | cons other rest ih =>
    obtain ⟨first, later⟩ := List.pairwise_cons.mp ordered
    unfold Span.insert
    split
    · refine List.pairwise_cons.mpr ⟨?_, ordered⟩
      intro t member
      rcases List.mem_cons.mp member with rfl | behind
      · exact Nat.le_of_lt ‹_›
      · exact Nat.le_trans (Nat.le_of_lt ‹_›) (first t behind)
    · refine List.pairwise_cons.mpr ⟨?_, ih later⟩
      intro t member
      rcases List.mem_cons.mp ((insert_perm s rest).mem_iff.mp member) with rfl | behind
      · exact Nat.le_of_not_lt ‹_›
      · exact first t behind

theorem sorted_ordered (spans : List Span) :
    (Span.sorted spans).Pairwise fun a b => a.range.start ≤ b.range.start := by
  have from_ (done : List Span)
      (ordered : done.Pairwise fun a b => a.range.start ≤ b.range.start) :
      (spans.foldl (fun done s => s.insert done) done).Pairwise
        fun a b => a.range.start ≤ b.range.start := by
    induction spans generalizing done with
    | nil => exact ordered
    | cons s rest ih => exact ih (s.insert done) (insert_ordered ordered)
  exact from_ [] List.Pairwise.nil

/-! ### Comments and directives -/

-- What some comments own that make up one part; a comment that is no documentation line is a part
-- of its own.
def OwnedByComments (cs : List Char) (comments : List Range) (s : Span) : Prop :=
  s.kind.isTrivia = true ∧ ∃ rs hull, (∀ r ∈ rs, r ∈ comments) ∧ Chain cs rs hull s.range

theorem classify_isTrivia (cs : List Char) : (classify cs).isTrivia = true := by
  unfold classify
  dsimp only
  split
  · rfl
  · split
    · rfl
    · split <;> rfl

theorem commentSpansFrom_owned {cs : List Char} {done : List Span} {rest comments : List Range}
    (within : ∀ r ∈ rest, r.Within cs.length) (listed : ∀ r ∈ rest, r ∈ comments)
    (owned : ∀ s ∈ done, OwnedByComments cs comments s) :
    ∀ s ∈ commentSpansFrom cs done rest, OwnedByComments cs comments s := by
  induction rest generalizing done with
  | nil =>
    intro s member
    exact owned s (List.mem_reverse.mp member)
  | cons r rest ih =>
    have owns := extend_owns_within (within r List.mem_cons_self)
    have alone : OwnedByComments cs comments ⟨r.extend cs, classify (textOf cs r)⟩ := by
      refine ⟨classify_isTrivia _, [r], r, ?_, .one owns⟩
      intro t member
      rw [List.mem_singleton.mp member]
      exact listed r List.mem_cons_self
    have within' : ∀ t ∈ rest, t.Within cs.length :=
      fun t member => within t (List.mem_cons_of_mem _ member)
    have listed' : ∀ t ∈ rest, t ∈ comments :=
      fun t member => listed t (List.mem_cons_of_mem _ member)
    unfold commentSpansFrom
    cases done with
    | nil =>
      apply ih within' listed'
      intro s member
      rw [List.mem_singleton.mp member]
      exact alone
    | cons last before =>
      dsimp only
      split
      · rename_i merges
        simp only [Bool.and_eq_true, decide_eq_true_eq] at merges
        obtain ⟨_, rs, hull, among, chain⟩ := owned last List.mem_cons_self
        apply ih within' listed'
        intro s member
        rcases List.mem_cons.mp member with rfl | earlier
        · refine ⟨classify_isTrivia _, rs ++ [r], _, ?_, chain.more owns merges.2⟩
          intro t member
          rcases List.mem_append.mp member with old | new
          · exact among t old
          · rw [List.mem_singleton.mp new]
            exact listed r List.mem_cons_self
        · exact owned s (List.mem_cons_of_mem _ earlier)
      · apply ih within' listed'
        intro s member
        rcases List.mem_cons.mp member with rfl | earlier
        · exact alone
        · exact owned s earlier

-- What is neither code nor owned by comments is owned by one directive.
theorem spansOf_owned {cs : List Char} {comments usings : List Range}
    (within : ∀ r ∈ comments ++ usings, r.Within cs.length) :
    ∀ s ∈ spansOf cs comments usings, OwnedByComments cs comments s ∨
      (s.kind = .using ∧ ∃ r ∈ usings, s.range = r.extend cs ∧ Owns cs r s.range) := by
  intro s member
  rcases List.mem_append.mp ((sorted_perm _).mem_iff.mp member) with comment | directive
  · left
    exact commentSpansFrom_owned (fun r found => within r (List.mem_append_left _ found))
      (fun r found => found) (by intro t none; cases none) s comment
  · right
    obtain ⟨r, found, rfl⟩ := List.mem_map.mp directive
    exact ⟨rfl, r, found, rfl, extend_owns_within (within r (List.mem_append_right _ found))⟩

theorem spansOf_within {cs : List Char} {comments usings : List Range}
    (within : ∀ r ∈ comments ++ usings, r.Within cs.length) :
    ∀ s ∈ spansOf cs comments usings, s.range.Within cs.length := by
  intro s member
  rcases spansOf_owned within s member with ⟨_, rs, hull, among, chain⟩ | ⟨_, r, found, _, owns⟩
  · have inside : ∀ r ∈ rs, r.Within cs.length :=
      fun r found => within r (List.mem_append_left _ (among r found))
    clear among member
    generalize s.range = own at chain
    induction chain with
    | one owns => exact owns_within (inside _ (List.mem_singleton.mpr rfl)) owns
    | more before owns meets ih =>
      have first := ih fun r found => inside r (List.mem_append_left _ found)
      have last := owns_within (inside _ (List.mem_append_right _ (List.mem_singleton.mpr rfl)))
        owns
      refine ⟨?_, last.2⟩
      exact Nat.le_trans first.1 (by rw [meets]; exact last.1)
  · exact owns_within (within r (List.mem_append_right _ found)) owns

/-! ### Places apart from each other -/

def Apart (r s : Range) : Prop := r.stop ≤ s.start ∨ s.stop ≤ r.start

theorem Apart.symm {r s : Range} (apart : Apart r s) : Apart s r := Or.symm apart

structure Separate (rs : List Range) : Prop where
  apart : rs.Pairwise Apart
  proper : ∀ r ∈ rs, r.start < r.stop

theorem Separate.perm {rs ss : List Range} (separate : Separate rs) (same : rs.Perm ss) :
    Separate ss :=
  ⟨(same.pairwise_iff fun apart => apart.symm).mp separate.apart,
    fun r member => separate.proper r (same.mem_iff.mpr member)⟩

-- Two ranges that meet are as far from all others as each of them.
theorem Separate.merge {r s : Range} {rest : List Range} (separate : Separate (r :: s :: rest))
    (meets : r.stop = s.start) : Separate (⟨r.start, s.stop⟩ :: rest) := by
  obtain ⟨first, behind⟩ := List.pairwise_cons.mp separate.apart
  obtain ⟨second, later⟩ := List.pairwise_cons.mp behind
  have properR := separate.proper r List.mem_cons_self
  have properS := separate.proper s (List.mem_cons_of_mem _ List.mem_cons_self)
  have properRest : ∀ t ∈ rest, t.start < t.stop := fun t member =>
    separate.proper t (List.mem_cons_of_mem _ (List.mem_cons_of_mem _ member))
  refine ⟨List.pairwise_cons.mpr ⟨?_, later⟩, ?_⟩
  · intro t member
    have proper := properRest t member
    rcases first t (List.mem_cons_of_mem _ member) with before | after
    · rcases second t member with before' | after'
      · exact .inl before'
      · omega
    · exact .inr after
  · intro t member
    rcases List.mem_cons.mp member with rfl | old
    · change r.start < s.stop
      omega
    · exact properRest t old

-- Spans in order that do not overlap are all there.
theorem mem_tilesFrom {length cursor : Nat} {spans : List Span}
    (ordered : spans.Pairwise fun a b => a.range.stop ≤ b.range.start)
    (ahead : ∀ s ∈ spans, cursor ≤ s.range.start) :
    ∀ s ∈ spans, s ∈ tilesFrom length cursor spans := by
  induction spans generalizing cursor with
  | nil =>
    intro s none
    cases none
  | cons t rest ih =>
    obtain ⟨first, later⟩ := List.pairwise_cons.mp ordered
    intro s member
    have own : s ∈ t :: tilesFrom length t.range.stop rest := by
      rcases List.mem_cons.mp member with rfl | behind
      · exact List.mem_cons_self
      · exact List.mem_cons_of_mem _ (ih later first s behind)
    unfold tilesFrom
    rw [if_neg (Nat.not_lt_of_le (ahead t List.mem_cons_self))]
    dsimp only
    split
    · exact List.mem_cons_of_mem _ own
    · exact own

-- Spans that are apart from each other are in a row once they are sorted.
theorem sorted_separate {spans : List Span} (separate : Separate (spans.map Span.range)) :
    (Span.sorted spans).Pairwise fun a b => a.range.stop ≤ b.range.start := by
  have inOrder := separate.perm ((sorted_perm spans).map Span.range).symm
  have apart := List.pairwise_map.mp inOrder.apart
  refine (apart.and (sorted_ordered spans)).imp_of_mem ?_
  rintro a b memberA memberB ⟨before | after, starts⟩
  · exact before
  · have proper := inOrder.proper b.range (List.mem_map_of_mem memberB)
    omega

end InlineProject.Source
