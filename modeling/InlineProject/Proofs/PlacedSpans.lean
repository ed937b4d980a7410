import InlineProject.Proofs.DocumentationRuns
import InlineProject.Proofs.OctetLines
/-!
The spans of comments and directives among bytes. Where these stand soundly, what they own does not overlap,
whatever the layout around them, so that no span is passed over when the bytes are cut: there is one for each
directive and one for each run of documentation lines.
-/

namespace InlineProject.Source

variable {bytes : Octets.Bytes} {comments usings run : List Range} {r s : Range} {span : Span} {spans : List Span}

/-! ### Where comments and directives may stand -/

def IsDocumentation (bytes : Octets.Bytes) (r : Range) : Prop := (Octets.commentSpan bytes r).kind = .lineDoc

-- Comments in their order and directives, none of which overlaps another one. Each begins with ink and does
-- not end with a line feed; behind a blank at its end, and behind documentation, the line stops.
structure Placed (bytes : Octets.Bytes) (comments usings : List Range) : Prop where
  apart : (comments ++ usings).Pairwise Apart
  ordered : comments.Pairwise fun r s => r.stop ≤ s.start
  solid : ∀ r ∈ comments ++ usings, Solid (letters bytes) r
  closed : ∀ r ∈ comments ++ usings, EndsBlank (letters bytes) r → Stops (letters bytes) r.stop
  lines : ∀ r ∈ comments, IsDocumentation bytes r → Stops (letters bytes) r.stop

instance : Decidable (IsDocumentation bytes r) := inferInstanceAs (Decidable (_ = _))

instance : DecidableRel Apart := fun r s => inferInstanceAs (Decidable (r.stop ≤ s.start ∨ s.stop ≤ r.start))

instance : Decidable (Placed bytes comments usings) :=
  decidable_of_iff ((comments ++ usings).Pairwise Apart ∧ (comments.Pairwise fun r s => r.stop ≤ s.start) ∧
      (∀ r ∈ comments ++ usings, Solid (letters bytes) r) ∧
      (∀ r ∈ comments ++ usings, EndsBlank (letters bytes) r → Stops (letters bytes) r.stop) ∧
      ∀ r ∈ comments, IsDocumentation bytes r → Stops (letters bytes) r.stop)
    ⟨fun ⟨apart, ordered, solid, closed, lines⟩ => ⟨apart, ordered, solid, closed, lines⟩,
      fun placed => ⟨placed.apart, placed.ordered, placed.solid, placed.closed, placed.lines⟩⟩

-- Documentation that goes on with the documentation of the line before.
noncomputable def continues (bytes : Octets.Bytes) (r s : Range) : Bool :=
  @decide (IsDocumentation bytes r ∧ IsDocumentation bytes s ∧ Continues (letters bytes) r s)
    (Classical.propDecidable _)

theorem solid_extend (solid : Solid (letters bytes) r) : Owns (letters bytes) r (Octets.extend bytes r) := by
  rw [extend_letters]
  exact solid.owns

namespace Placed

theorem own_ahead (placed : Placed bytes comments usings) (here : r ∈ comments ++ usings)
    (there : s ∈ comments ++ usings) (before : r.stop ≤ s.start) :
    (Octets.extend bytes r).stop ≤ (Octets.extend bytes s).start :=
  solid_owns_apart (placed.solid r here) (placed.closed r here) (placed.solid s there) before
    (solid_extend (placed.solid r here)) (solid_extend (placed.solid s there))

theorem own_proper (placed : Placed bytes comments usings) (here : r ∈ comments ++ usings) :
    (Octets.extend bytes r).start < (Octets.extend bytes r).stop := by
  have solid := placed.solid r here
  have owns := solid_extend solid
  have front := owns.front
  have behind := owns.stop_le
  have filled := solid.filled
  omega

theorem own_apart (placed : Placed bytes comments usings) :
    (comments ++ usings).Pairwise fun r s => Apart (Octets.extend bytes r) (Octets.extend bytes s) := by
  refine placed.apart.imp_of_mem ?_
  rintro r s here there (before | after)
  · exact .inl (placed.own_ahead here there before)
  · exact .inr (placed.own_ahead there here after)

theorem own_ordered (placed : Placed bytes comments usings) :
    comments.Pairwise fun r s => (Octets.extend bytes r).stop ≤ (Octets.extend bytes s).start :=
  placed.ordered.imp_of_mem fun here there before =>
    placed.own_ahead (List.mem_append_left _ here) (List.mem_append_left _ there) before

-- Of two comments the merging joins those, and only those, of which one continues the other.
theorem continues_exact (placed : Placed bytes comments usings) :
    comments.Pairwise fun r s => continues bytes r s = true ↔ Joins (Octets.commentSpan bytes) r s := by
  refine placed.ordered.imp_of_mem ?_
  intro r s here there before
  have solid := placed.solid r (List.mem_append_left _ here)
  have solid' := placed.solid s (List.mem_append_left _ there)
  have meets (doc : IsDocumentation bytes r) :=
    owns_meets_exact (placed.lines r here doc) solid' before (solid_extend solid) (solid_extend solid')
  unfold continues
  simp only [decide_eq_true_eq]
  constructor
  · rintro ⟨doc, doc', next⟩
    exact ⟨doc', doc.trans doc'.symm, (meets doc).mpr next⟩
  · rintro ⟨doc', same, joint⟩
    have doc : IsDocumentation bytes r := same.trans doc'
    exact ⟨doc, doc', (meets doc).mp joint⟩

theorem comment_runs (placed : Placed bytes comments usings) :
    List.Forall₂ (RunSpan (Octets.commentSpan bytes)) (comments.splitBy (continues bytes))
      (Octets.mergeFrom (Octets.commentSpan bytes) [] comments) :=
  merged_runs placed.continues_exact

theorem mem_comments (member : run ∈ comments.splitBy (continues bytes)) (among : r ∈ run) : r ∈ comments := by
  have listed := List.mem_flatten.mpr ⟨run, member, among⟩
  rwa [List.flatten_splitBy] at listed

-- What the comments of a run own meets.
theorem run_meets (placed : Placed bytes comments usings) (member : run ∈ comments.splitBy (continues bytes)) :
    run.IsChain fun r s => (Octets.commentSpan bytes r).range.stop = (Octets.commentSpan bytes s).range.start := by
  refine (List.isChain_of_mem_splitBy member).imp_of_mem_imp ?_
  intro r s here there linked
  simp only [continues, decide_eq_true_eq] at linked
  obtain ⟨doc, _, next⟩ := linked
  have here := mem_comments member here
  have solid := placed.solid r (List.mem_append_left _ here)
  have solid' := placed.solid s (List.mem_append_left _ (mem_comments member there))
  have before : r.stop ≤ s.start := by
    obtain ⟨i, j, after, _, breaks, reached, _⟩ := next.next
    have later := breaks.feed.1
    omega
  exact (owns_meets_exact (placed.lines r here doc) solid' before (solid_extend solid)
    (solid_extend solid')).mpr next

theorem runs_ordered (placed : Placed bytes comments usings) :
    (∀ run ∈ comments.splitBy (continues bytes),
      run.Pairwise fun r s => (Octets.extend bytes r).stop ≤ (Octets.extend bytes s).start) ∧
    (comments.splitBy (continues bytes)).Pairwise fun run next =>
      ∀ r ∈ run, ∀ s ∈ next, (Octets.extend bytes r).stop ≤ (Octets.extend bytes s).start := by
  have ordered := placed.own_ordered
  rw [← List.flatten_splitBy (continues bytes) comments] at ordered
  exact List.pairwise_flatten.mp ordered

theorem run_covers (placed : Placed bytes comments usings) (found : run ∈ comments.splitBy (continues bytes))
    (made : RunSpan (Octets.commentSpan bytes) run span) (among : r ∈ run) :
    span.range.start ≤ (Octets.extend bytes r).start ∧ (Octets.extend bytes r).stop ≤ span.range.stop :=
  runSpan_covers made (placed.runs_ordered.1 run found)
    (fun _ member => placed.own_proper (List.mem_append_left _ (mem_comments found member))) among

theorem merged_ordered (placed : Placed bytes comments usings) :
    (Octets.mergeFrom (Octets.commentSpan bytes) [] comments).Pairwise fun a b => a.range.stop ≤ b.range.start := by
  refine pairwise_right placed.comment_runs ?_ placed.runs_ordered.2
  intro run next a b made made' ahead
  obtain ⟨last, atEnd, stops⟩ := made.stops
  obtain ⟨first, head, starts⟩ := made'.starts
  have meets := ahead last (List.mem_of_mem_getLast? atEnd) first (List.mem_of_mem_head? head)
  rw [← stops, ← starts]
  exact meets

theorem merged_proper (placed : Placed bytes comments usings) {s : Span}
    (member : s ∈ Octets.mergeFrom (Octets.commentSpan bytes) [] comments) : s.range.start < s.range.stop := by
  obtain ⟨run, found, made⟩ := exists_left placed.comment_runs member
  obtain ⟨first, head, _⟩ := made.starts
  have among := List.mem_of_mem_head? head
  have covered := placed.run_covers found made among
  have proper := placed.own_proper (List.mem_append_left usings (mem_comments found among))
  omega

theorem merged_trivia (placed : Placed bytes comments usings) {s : Span}
    (member : s ∈ Octets.mergeFrom (Octets.commentSpan bytes) [] comments) : s.kind.isTrivia = true := by
  obtain ⟨run, _, made⟩ := exists_left placed.comment_runs member
  obtain ⟨first, head, _⟩ := made.starts
  rw [← made.kinds first (List.mem_of_mem_head? head)]
  exact classify_isTrivia _

-- What a directive owns is apart from all spans of comments.
theorem merged_apart (placed : Placed bytes comments usings) {s : Span} (directive : r ∈ usings)
    (member : s ∈ Octets.mergeFrom (Octets.commentSpan bytes) [] comments) :
    Apart (Octets.extend bytes r) s.range := by
  obtain ⟨run, found, made⟩ := exists_left placed.comment_runs member
  refine runSpan_apart made (placed.run_meets found) (placed.own_proper (List.mem_append_right _ directive)) ?_
  intro c among
  have apart := (List.pairwise_append.mp placed.own_apart).2.2 c (mem_comments found among) r directive
  exact apart.symm

theorem spans_separate (placed : Placed bytes comments usings) :
    Separate ((Octets.mergeFrom (Octets.commentSpan bytes) [] comments
      ++ usings.map fun r => Span.mk (Octets.extend bytes r) .using).map Span.range) := by
  constructor
  · refine List.pairwise_map.mpr (List.pairwise_append.mpr ⟨?_, ?_, ?_⟩)
    · exact placed.merged_ordered.imp fun ahead => .inl ahead
    · exact List.pairwise_map.mpr (List.pairwise_append.mp placed.own_apart).2.1
    · intro s comment t directive
      obtain ⟨r, found, rfl⟩ := List.mem_map.mp directive
      exact (placed.merged_apart found comment).symm
  · intro own member
    obtain ⟨s, listed, rfl⟩ := List.mem_map.mp member
    rcases List.mem_append.mp listed with comment | directive
    · exact placed.merged_proper comment
    · obtain ⟨r, found, rfl⟩ := List.mem_map.mp directive
      exact placed.own_proper (List.mem_append_right _ found)

theorem span_within (placed : Placed bytes comments usings) {s : Span}
    (member : s ∈ Octets.mergeFrom (Octets.commentSpan bytes) [] comments
      ++ usings.map fun r => Span.mk (Octets.extend bytes r) .using) : s.range.stop ≤ bytes.length := by
  have own {r : Range} (here : r ∈ comments ++ usings) : (Octets.extend bytes r).stop ≤ bytes.length := by
    have solid := placed.solid r here
    have inside := owns_stop_le_length solid.within.2 (solid_extend solid)
    rwa [letters, List.length_map] at inside
  rcases List.mem_append.mp member with comment | directive
  · obtain ⟨run, found, made⟩ := exists_left placed.comment_runs comment
    obtain ⟨last, atEnd, stops⟩ := made.stops
    rw [← stops]
    exact own (List.mem_append_left _ (mem_comments found (List.mem_of_mem_getLast? atEnd)))
  · obtain ⟨r, found, rfl⟩ := List.mem_map.mp directive
    exact own (List.mem_append_right _ found)

end Placed

/-! ### The spans of a source -/

theorem tilesFrom_filter {length cursor : Nat} (ordered : spans.Pairwise fun a b => a.range.stop ≤ b.range.start)
    (ahead : ∀ s ∈ spans, cursor ≤ s.range.start) (noCode : ∀ s ∈ spans, s.kind ≠ .code) :
    (tilesFrom length cursor spans).filter (fun s => s.kind ≠ .code) = spans := by
  induction spans generalizing cursor with
  | nil =>
    unfold tilesFrom
    split <;> rfl
  | cons s rest ih =>
    obtain ⟨first, later⟩ := List.pairwise_cons.mp ordered
    have kept : decide (s.kind ≠ .code) = true := decide_eq_true (noCode s List.mem_cons_self)
    have own : (s :: tilesFrom length s.range.stop rest).filter (fun s => s.kind ≠ .code) = s :: rest := by
      rw [List.filter_cons_of_pos (p := fun s : Span => s.kind ≠ .code) kept, ih later first fun t member => noCode t (List.mem_cons_of_mem _ member)]
    unfold tilesFrom
    rw [if_neg (Nat.not_lt_of_le (ahead s List.mem_cons_self))]
    dsimp only
    split
    · exact own
    · exact own

-- No span is passed over: each directive has one, and the comments have one for each run.
structure Kept (bytes : Octets.Bytes) (comments usings : List Range) : Prop where
  apart : (Octets.spansOf bytes comments usings).Pairwise fun a b => a.range.stop ≤ b.range.start
  tiled : Tiled bytes.length 0 (tilesFrom bytes.length 0 (Octets.spansOf bytes comments usings))
  all : (tilesFrom bytes.length 0 (Octets.spansOf bytes comments usings)).filter (fun s => s.kind ≠ .code)
    = Octets.spansOf bytes comments usings
  directives : ((Octets.spansOf bytes comments usings).filter fun s => s.kind = .using).Perm
    (usings.map fun r => ⟨Octets.extend bytes r, .using⟩)
  documentation : List.Forall₂ (RunSpan (Octets.commentSpan bytes)) (comments.splitBy (continues bytes))
    ((Octets.spansOf bytes comments usings).filter fun s => s.kind.isTrivia)

theorem spans_perm : (Octets.spansOf bytes comments usings).Perm
    (Octets.mergeFrom (Octets.commentSpan bytes) [] comments
      ++ usings.map fun r => Span.mk (Octets.extend bytes r) .using) := sorted_perm _

namespace Placed

theorem spans_ordered (placed : Placed bytes comments usings) :
    (Octets.spansOf bytes comments usings).Pairwise fun a b => a.range.stop ≤ b.range.start :=
  sorted_separate placed.spans_separate

theorem spans_no_code (placed : Placed bytes comments usings) :
    ∀ s ∈ Octets.spansOf bytes comments usings, s.kind ≠ .code := by
  intro s member code
  rcases List.mem_append.mp (spans_perm.mem_iff.mp member) with comment | directive
  · have kind := placed.merged_trivia comment
    rw [code] at kind
    cases kind
  · obtain ⟨r, _, rfl⟩ := List.mem_map.mp directive
    cases code

theorem spans_directives (placed : Placed bytes comments usings) :
    ((Octets.spansOf bytes comments usings).filter fun s => s.kind = .using).Perm
      (usings.map fun r => ⟨Octets.extend bytes r, .using⟩) := by
  have filtered := (@spans_perm bytes comments usings).filter fun s => s.kind = .using
  have others : (Octets.mergeFrom (Octets.commentSpan bytes) [] comments).filter (fun s => s.kind = .using) = [] := by
    refine List.filter_eq_nil_iff.mpr fun s comment directive => ?_
    have kind := placed.merged_trivia comment
    rw [of_decide_eq_true directive] at kind
    cases kind
  have all : (usings.map fun r => Span.mk (Octets.extend bytes r) .using).filter (fun s => s.kind = .using)
      = usings.map fun r => Span.mk (Octets.extend bytes r) .using := by
    refine List.filter_eq_self.mpr fun s directive => ?_
    obtain ⟨r, _, rfl⟩ := List.mem_map.mp directive
    rfl
  rwa [List.filter_append, others, all, List.nil_append] at filtered

-- The spans of comments are in their order already before all spans are sorted.
theorem spans_comments (placed : Placed bytes comments usings) :
    (Octets.spansOf bytes comments usings).filter (fun s => s.kind.isTrivia)
      = Octets.mergeFrom (Octets.commentSpan bytes) [] comments := by
  have filtered := (@spans_perm bytes comments usings).filter fun s => s.kind.isTrivia
  have all : (Octets.mergeFrom (Octets.commentSpan bytes) [] comments).filter (fun s => s.kind.isTrivia)
      = Octets.mergeFrom (Octets.commentSpan bytes) [] comments :=
    List.filter_eq_self.mpr fun s comment => placed.merged_trivia comment
  have others : (usings.map fun r => Span.mk (Octets.extend bytes r) .using).filter
      (fun s => s.kind.isTrivia) = [] := by
    refine List.filter_eq_nil_iff.mpr fun s directive trivia => ?_
    obtain ⟨r, _, rfl⟩ := List.mem_map.mp directive
    cases trivia
  rw [List.filter_append, all, others, List.append_nil] at filtered
  refine filtered.eq_of_pairwise ?_ (placed.spans_ordered.filter _) placed.merged_ordered
  intro a b found comment before after
  have proper := placed.merged_proper (filtered.mem_iff.mp found)
  have proper' := placed.merged_proper comment
  omega

-- A span that is no code is one of the cut, and the cut has no others.
theorem mem_cut (placed : Placed bytes comments usings) {s : Span} (noCode : s.kind ≠ .code) :
    s ∈ tilesFrom bytes.length 0 (Octets.spansOf bytes comments usings)
      ↔ s ∈ Octets.spansOf bytes comments usings :=
  ⟨fun member => (tilesFrom_mem member).resolve_left noCode,
    fun member => mem_tilesFrom placed.spans_ordered (fun _ _ => Nat.zero_le _) s member⟩

-- A comment's span begins before a comment.
theorem comment_behind (placed : Placed bytes comments usings) {s : Span}
    (member : s ∈ tilesFrom bytes.length 0 (Octets.spansOf bytes comments usings))
    (trivia : s.kind.isTrivia = true) : ∃ r ∈ comments, s.range.start ≤ r.start := by
  have noCode : s.kind ≠ .code := by
    intro code
    rw [code] at trivia
    cases trivia
  have comment : s ∈ (Octets.spansOf bytes comments usings).filter fun s => s.kind.isTrivia :=
    List.mem_filter.mpr ⟨(placed.mem_cut noCode).mp member, trivia⟩
  rw [placed.spans_comments] at comment
  obtain ⟨run, found, made⟩ := exists_left placed.comment_runs comment
  obtain ⟨first, head, starts⟩ := made.starts
  have listed := mem_comments found (List.mem_of_mem_head? head)
  have front := (solid_extend (placed.solid first (List.mem_append_left _ listed))).front
  exact ⟨first, listed, starts ▸ front⟩

-- Every comment lies in a comment's span.
theorem comment_within (placed : Placed bytes comments usings) (comment : r ∈ comments) :
    ∃ s ∈ tilesFrom bytes.length 0 (Octets.spansOf bytes comments usings),
      s.kind.isTrivia = true ∧ s.range.start ≤ r.start ∧ r.stop ≤ s.range.stop := by
  have owns := solid_extend (placed.solid r (List.mem_append_left _ comment))
  have front := owns.front
  have behind := owns.stop_le
  rw [← List.flatten_splitBy (continues bytes) comments] at comment
  obtain ⟨run, found, among⟩ := List.mem_flatten.mp comment
  obtain ⟨s, merged, made⟩ := exists_right placed.comment_runs found
  have covered := placed.run_covers found made among
  have trivia := placed.merged_trivia merged
  have noCode : s.kind ≠ .code := by
    intro code
    rw [code] at trivia
    cases trivia
  rw [← placed.spans_comments] at merged
  exact ⟨s, (placed.mem_cut noCode).mpr (List.mem_of_mem_filter merged), trivia, by omega, by omega⟩

-- A directive's span ends behind the directive.
theorem directive_before (placed : Placed bytes comments usings) {s : Span}
    (member : s ∈ tilesFrom bytes.length 0 (Octets.spansOf bytes comments usings)) (directive : s.kind = .using) :
    ∃ r ∈ usings, r.start < s.range.stop := by
  have noCode : s.kind ≠ .code := by
    rw [directive]
    nofun
  have listed : s ∈ (Octets.spansOf bytes comments usings).filter fun s => s.kind = .using :=
    List.mem_filter.mpr ⟨(placed.mem_cut noCode).mp member, decide_eq_true directive⟩
  obtain ⟨r, found, rfl⟩ := List.mem_map.mp (placed.spans_directives.mem_iff.mp listed)
  have solid := placed.solid r (List.mem_append_right _ found)
  have behind := (solid_extend solid).stop_le
  have filled := solid.filled
  exact ⟨r, found, Nat.lt_of_lt_of_le filled behind⟩

theorem kept (placed : Placed bytes comments usings) : Kept bytes comments usings := by
  refine ⟨placed.spans_ordered, tilesFrom_tiled (Nat.zero_le _) ?_, ?_, placed.spans_directives, ?_⟩
  · intro s member
    have listed := spans_perm.mem_iff.mp member
    have proper := placed.spans_separate.proper s.range (List.mem_map_of_mem listed)
    exact ⟨Nat.le_of_lt proper, placed.span_within listed⟩
  · exact tilesFrom_filter placed.spans_ordered (fun s _ => Nat.zero_le _) placed.spans_no_code
  · rw [placed.spans_comments]
    exact placed.comment_runs

end Placed

end InlineProject.Source
