import InlineProject.Proofs.SourceLayout
import InlineProject.Source.Octets
import Mathlib.Data.List.SplitBy
/-!
Documentation lines that are merged. Comments are merged from left to right, each into the span of the one
before, and what comes of it is one span for each run of comments that a relation links; what a span is made
of lies in it, and what is apart from all of that is apart from the span.
-/

namespace InlineProject.Source

variable {comments rest run : List Range} {r s x : Range} {last span : Span} {before : List Span}
  {spanAt : Range → Span} {link : Range → Range → Bool}

/-! ### Runs and their spans -/

-- One span over a run of places: from where the first one begins to where the last one ends.
structure RunSpan (spanAt : Range → Span) (run : List Range) (span : Span) : Prop where
  starts : ∃ r ∈ run.head?, (spanAt r).range.start = span.range.start
  stops : ∃ r ∈ run.getLast?, (spanAt r).range.stop = span.range.stop
  kinds : ∀ r ∈ run, (spanAt r).kind = span.kind

-- A documentation line behind another one, with nothing in between that neither of them owns.
def Joins (spanAt : Range → Span) (r s : Range) : Prop :=
  (spanAt s).kind = .lineDoc ∧ (spanAt r).kind = (spanAt s).kind ∧ (spanAt r).range.stop = (spanAt s).range.start

theorem runSpan_single (r : Range) : RunSpan spanAt [r] (spanAt r) :=
  ⟨⟨r, rfl, rfl⟩, ⟨r, rfl, rfl⟩, fun s member => by rw [List.mem_singleton.mp member]⟩

theorem runSpan_more (made : RunSpan spanAt run last) (same : last.kind = (spanAt s).kind) :
    RunSpan spanAt (run ++ [s]) ⟨⟨last.range.start, (spanAt s).range.stop⟩, (spanAt s).kind⟩ := by
  obtain ⟨first, head, starts⟩ := made.starts
  refine ⟨⟨first, ?_, starts⟩, ⟨s, List.getLast?_concat, rfl⟩, ?_⟩
  · exact List.mem_head?_append_of_mem_head? head
  · intro r member
    rcases List.mem_append.mp member with old | new
    · exact (made.kinds r old).trans same
    · rw [List.mem_singleton.mp new]

-- The runs that are merged are cut where one place does not join the one before. The induction is on the
-- places to come; `run` holds those of the last span.
theorem mergeFrom_runs (made : RunSpan spanAt run last) (linked : run.IsChain fun r s => link r s = true)
    (exact_ : (run ++ rest).Pairwise fun r s => link r s = true ↔ Joins spanAt r s) :
    ∃ spans, Octets.mergeFrom spanAt (last :: before) rest = before.reverse ++ spans ∧
      List.Forall₂ (RunSpan spanAt) ((run ++ rest).splitBy link) spans := by
  obtain ⟨end_, atEnd, stops⟩ := made.stops
  have some : run ≠ [] := List.ne_nil_of_mem (List.mem_of_mem_getLast? atEnd)
  have kind := made.kinds end_ (List.mem_of_mem_getLast? atEnd)
  induction rest generalizing run last before end_ with
  | nil =>
    refine ⟨[last], List.reverse_cons, ?_⟩
    rw [List.append_nil, List.splitBy_of_isChain some linked]
    exact .cons made .nil
  | cons s rest ih =>
    have joins : link end_ s = true ↔ Joins spanAt end_ s :=
      (List.pairwise_append.mp exact_).2.2 end_ (List.mem_of_mem_getLast? atEnd) s List.mem_cons_self
    unfold Octets.mergeFrom
    dsimp only
    split
    · rename_i merges
      simp only [Bool.and_eq_true, decide_eq_true_eq] at merges
      have linked' : link end_ s = true :=
        joins.mpr ⟨merges.1.1, kind.trans merges.1.2, stops.trans merges.2⟩
      have longer : (run ++ [s]).IsChain fun r s => link r s = true := by
        refine List.isChain_append.mpr ⟨linked, List.isChain_singleton s, ?_⟩
        intro a atLast b atHead
        rw [Option.mem_unique atLast atEnd, ← Option.some.inj atHead]
        exact linked'
      have whole : run ++ s :: rest = run ++ [s] ++ rest := List.append_cons run s rest
      rw [whole] at exact_ ⊢
      exact ih (runSpan_more made merges.1.2) longer exact_ s List.getLast?_concat rfl (by simp) rfl
    · rename_i parts
      have parted : link end_ s = false := by
        refine Bool.eq_false_iff.mpr fun linked' => parts ?_
        obtain ⟨doc, same, meets⟩ := joins.mp linked'
        simp only [Bool.and_eq_true, decide_eq_true_eq]
        exact ⟨⟨doc, kind.symm.trans same⟩, stops.symm.trans meets⟩
      obtain ⟨spans, merged, runs⟩ := @ih [s] (spanAt s) (last :: before) (runSpan_single s)
        (List.isChain_singleton s) (List.pairwise_append.mp exact_).2.1 s rfl rfl (List.cons_ne_nil s []) rfl
      refine ⟨last :: spans, ?_, ?_⟩
      · rw [merged, List.reverse_cons, List.append_assoc]
        rfl
      · have cut : (run ++ s :: rest).splitBy link = run :: (s :: rest).splitBy link := by
          rw [List.splitBy_append_cons, List.splitBy_of_isChain some linked]
          · rfl
          · intro a atLast
            rw [Option.mem_unique atLast atEnd]
            exact parted
        rw [cut]
        exact .cons made runs

theorem merged_runs (exact_ : comments.Pairwise fun r s => link r s = true ↔ Joins spanAt r s) :
    List.Forall₂ (RunSpan spanAt) (comments.splitBy link) (Octets.mergeFrom spanAt [] comments) := by
  cases comments with
  | nil => exact .nil
  | cons r rest =>
    obtain ⟨spans, merged, runs⟩ := @mergeFrom_runs rest [r] (spanAt r) [] spanAt link (runSpan_single r)
      (List.isChain_singleton r) exact_
    change List.Forall₂ _ _ (Octets.mergeFrom spanAt [spanAt r] rest)
    rw [merged]
    exact runs

theorem runSpan_tail {more : List Range} (made : RunSpan spanAt (r :: s :: more) span) :
    RunSpan spanAt (s :: more) ⟨⟨(spanAt s).range.start, span.range.stop⟩, span.kind⟩ :=
  ⟨⟨s, rfl, rfl⟩, made.stops, fun q member => made.kinds q (List.mem_cons_of_mem _ member)⟩

theorem runSpan_start (made : RunSpan spanAt (r :: rest) span) : (spanAt r).range.start = span.range.start := by
  obtain ⟨first, head, starts⟩ := made.starts
  rwa [← Option.some.inj head] at starts

theorem runSpan_alone (made : RunSpan spanAt [r] span) : (spanAt r).range.stop = span.range.stop := by
  obtain ⟨last, atEnd, stops⟩ := made.stops
  rwa [← Option.some.inj atEnd] at stops

theorem runSpan_empty (made : RunSpan spanAt [] span) : False := by
  obtain ⟨_, none, _⟩ := made.starts
  cases none

-- A place apart from all that a run of meeting places owns is apart from the whole.
theorem runSpan_apart (made : RunSpan spanAt run span)
    (meets : run.IsChain fun r s => (spanAt r).range.stop = (spanAt s).range.start) (proper : x.start < x.stop)
    (apart : ∀ r ∈ run, Apart x (spanAt r).range) : Apart x span.range := by
  induction run generalizing span with
  | nil => exact (runSpan_empty made).elim
  | cons r rest ih =>
    have starts := runSpan_start made
    have here := apart r List.mem_cons_self
    cases rest with
    | nil =>
      have stops := runSpan_alone made
      unfold Apart at here ⊢
      omega
    | cons t more =>
      obtain ⟨joint, later⟩ := List.isChain_cons_cons.mp meets
      have behind := ih (runSpan_tail made) later fun q member => apart q (List.mem_cons_of_mem _ member)
      unfold Apart at here behind ⊢
      dsimp only at behind
      omega

theorem runSpan_covers (made : RunSpan spanAt run span)
    (ordered : run.Pairwise fun r s => (spanAt r).range.stop ≤ (spanAt s).range.start)
    (proper : ∀ r ∈ run, (spanAt r).range.start < (spanAt r).range.stop) (member : r ∈ run) :
    span.range.start ≤ (spanAt r).range.start ∧ (spanAt r).range.stop ≤ span.range.stop := by
  induction run generalizing span r with
  | nil => cases member
  | cons first rest ih =>
    have starts := runSpan_start made
    have properFirst := proper first List.mem_cons_self
    cases rest with
    | nil =>
      have stops := runSpan_alone made
      rw [List.mem_singleton.mp member]
      omega
    | cons t more =>
      obtain ⟨ahead, later⟩ := List.pairwise_cons.mp ordered
      have tail {q : Range} := @ih q _ (runSpan_tail made) later fun q member => proper q (List.mem_cons_of_mem _ member)
      have behind := (tail List.mem_cons_self).2
      rcases List.mem_cons.mp member with rfl | old
      · have next := ahead t List.mem_cons_self
        have properNext := proper t (List.mem_cons_of_mem _ List.mem_cons_self)
        dsimp only at behind
        omega
      · have next := ahead r old
        have inside := (tail old).2
        dsimp only at inside
        omega

section Related

variable {α β : Type} {related : α → β → Prop} {as : List α} {bs : List β} {a : α} {b : β}

theorem exists_left (each : List.Forall₂ related as bs) (member : b ∈ bs) : ∃ a ∈ as, related a b := by
  induction each with
  | nil => cases member
  | cons here _ ih =>
    rcases List.mem_cons.mp member with rfl | behind
    · exact ⟨_, List.mem_cons_self, here⟩
    · obtain ⟨a, found, later⟩ := ih behind
      exact ⟨a, List.mem_cons_of_mem _ found, later⟩

theorem exists_right (each : List.Forall₂ related as bs) (member : a ∈ as) : ∃ b ∈ bs, related a b :=
  exists_left each.flip member

theorem pairwise_right {before : α → α → Prop} {after : β → β → Prop} (each : List.Forall₂ related as bs)
    (step : ∀ {a b c d}, related a c → related b d → before a b → after c d) (ordered : as.Pairwise before) :
    bs.Pairwise after := by
  induction each with
  | nil => exact .nil
  | cons here each ih =>
    obtain ⟨first, later⟩ := List.pairwise_cons.mp ordered
    refine List.pairwise_cons.mpr ⟨fun d member => ?_, ih later⟩
    obtain ⟨b, found, there⟩ := exists_left each member
    exact step here there (first b found)

end Related

end InlineProject.Source
