import InlineProject.Proofs.LosslessParse
import InlineProject.Proofs.PlacedSpans
/-!
No comment and no directive of a text is lost or misplaced. The parts of a file that are no code are what its
directives own, each for itself, and what its comments own, one part for a run of documentation lines; and the
comments at the head of a text are its leading ones.
-/

namespace InlineProject.Source

variable {bytes : Octets.Bytes} {comments usings : List Range} {r : Range} {spans : List Span}
  {cs : List Char} {text : String} {g : Octets.Grammar} {parts : List (Kind × String)} {j : Nat}
  {link : Range → Range → Bool}

/-! ### The head of a text -/

-- The directives come behind all comments, and what stands before a comment and in none is blank, or a byte
-- order mark.
structure BlankHead (cs : List Char) (comments usings : List Range) : Prop where
  first : ∀ r ∈ comments, ∀ s ∈ usings, r.stop ≤ s.start
  blank : ∀ r ∈ comments, ∀ k, (inside : k < cs.length) → offset cs k < r.start →
    (∀ s ∈ comments, s.holds (offset cs k) = false) → isBlank cs[k] = true ∨ cs[k] = byteOrderMark

instance : Decidable (BlankHead cs comments usings) :=
  decidable_of_iff ((∀ r ∈ comments, ∀ s ∈ usings, r.stop ≤ s.start) ∧
      ∀ r ∈ comments, ∀ k, (inside : k < cs.length) → offset cs k < r.start →
        (∀ s ∈ comments, s.holds (offset cs k) = false) → isBlank cs[k] = true ∨ cs[k] = byteOrderMark)
    ⟨fun ⟨first, blank⟩ => ⟨first, blank⟩, fun head => ⟨head.first, head.blank⟩⟩

-- What may come before a comment at the head: another comment, or blank code.
def LeadsTo (a b : Kind × String) : Prop :=
  b.1.isTrivia = true → a.1.isTrivia = true ∨ (a.1 = .code ∧ isBlankText a.2.toList = true)

theorem leadingFrom_filter {nodes : List Node} (leads : nodes.Pairwise fun n m => LeadsTo (n.kind, n.text) (m.kind, m.text)) :
    Unit.leadingFrom nodes = nodes.filter fun n => n.kind.isTrivia := by
  induction nodes with
  | nil => rfl
  | cons n rest ih =>
    obtain ⟨first, later⟩ := List.pairwise_cons.mp leads
    unfold Unit.leadingFrom
    split
    · rename_i trivia
      rw [List.filter_cons_of_pos (p := fun n : Node => n.kind.isTrivia) trivia, ih later]
    · rename_i other
      rw [List.filter_cons_of_neg (p := fun n : Node => n.kind.isTrivia) other]
      split
      · exact ih later
      · rename_i ends
        refine (List.filter_eq_nil_iff.mpr fun m member trivia => ?_).symm
        rcases first m member trivia with comment | ⟨code, blank⟩
        · exact other comment
        · exact ends (Bool.and_eq_true_iff.mpr ⟨decide_eq_true code, blank⟩)

theorem kind_cases (k : Kind) : k.isTrivia = true ∨ k = .using ∨ k = .code := by
  cases k <;> simp [Kind.isTrivia]

theorem tiled_ordered {start stop : Nat} (tiled : Tiled stop start spans) :
    spans.Pairwise fun a b => a.range.stop ≤ b.range.start := by
  induction spans generalizing start with
  | nil => exact .nil
  | cons s rest ih =>
    obtain ⟨_, _, later⟩ := tiled
    exact List.pairwise_cons.mpr ⟨fun t member => tiled_start_le later t member, ih later⟩

theorem isBlankText_of_all (blank : ∀ c ∈ cs, isBlank c = true ∨ c = byteOrderMark) : isBlankText cs = true := by
  unfold isBlankText Blank.isBlankText
  refine List.all_eq_true.mpr fun c member => ?_
  obtain ⟨listed, noMark⟩ := List.mem_filter.mp member
  exact (blank c listed).resolve_right (bne_iff_ne.mp noMark)

theorem getElem?_textOf {c : Char} (member : c ∈ textOf cs r) :
    ∃ k, r.start ≤ k ∧ k < r.stop ∧ cs[k]? = some c := by
  obtain ⟨i, here⟩ := List.mem_iff_getElem?.mp member
  unfold textOf at here
  rw [List.getElem?_drop, List.getElem?_take] at here
  split at here
  · exact ⟨r.start + i, Nat.le_add_right _ _, ‹_›, here⟩
  · cases here

-- The cut of a text at places of its bytes: before each comment there are only comments and blank code.
theorem cut_leads {cut : List Span} (placed : Placed (encode cs) comments usings) (head : BlankHead cs comments usings)
    (inside : ∀ t ∈ cut, t.range.Within cs.length)
    (counted : cut.map (Span.inBytes cs) = tilesFrom (encode cs).length 0 (Octets.spansOf (encode cs) comments usings)) :
    cut.Pairwise fun a b => LeadsTo (part cs a) (part cs b) := by
  have ordered := tiled_ordered placed.kept.tiled
  have apart : (cut.map (Span.inBytes cs)).Pairwise fun a b => Apart a.range b.range := by
    rw [counted]
    exact ordered.imp fun ahead => .inl ahead
  have : Std.Symm fun a b : Span => Apart a.range b.range := ⟨fun _ _ apart => apart.symm⟩
  rw [← counted, List.pairwise_map] at ordered
  refine ordered.imp_of_mem ?_
  intro a b memberA memberB ahead trivia
  have listedA : a.inBytes cs ∈ cut.map (Span.inBytes cs) := List.mem_map_of_mem memberA
  have listedB : b.inBytes cs ∈ cut.map (Span.inBytes cs) := List.mem_map_of_mem memberB
  have cutA := listedA
  rw [counted] at cutA listedB
  obtain ⟨c, comment, later⟩ := placed.comment_behind listedB trivia
  have solid := placed.solid c (List.mem_append_left _ comment)
  have filled := solid.filled
  rcases kind_cases a.kind with comment' | directive | code
  · exact .inl comment'
  · obtain ⟨u, found, sooner⟩ := placed.directive_before cutA directive
    have first := head.first c comment u found
    omega
  · refine .inr ⟨code, ?_⟩
    change isBlankText (String.ofList (textOf cs a.range)).toList = true
    rw [String.toList_ofList]
    refine isBlankText_of_all fun d member => ?_
    obtain ⟨k, above, below, here⟩ := getElem?_textOf member
    have within := inside a memberA
    obtain ⟨known, rfl⟩ := List.getElem?_eq_some_iff.mp here
    have starts : (a.inBytes cs).range.start ≤ offset cs k := by
      have := offset_lt cs (Nat.le_of_lt known) (Nat.le_trans within.1 within.2)
      change offset cs a.range.start ≤ offset cs k
      omega
    have stops : offset cs k < (a.inBytes cs).range.stop := (offset_lt cs (Nat.le_of_lt known) within.2).mpr below
    refine head.blank c comment k known (by omega) fun r other => ?_
    obtain ⟨s, listed, trivia', opens, closes⟩ := placed.comment_within other
    rw [← counted] at listed
    have differs : a.inBytes cs ≠ s := by
      rintro rfl
      rw [show (a.inBytes cs).kind = a.kind from rfl, code] at trivia'
      cases trivia'
    have away := apart.forall listedA listed differs
    refine Bool.eq_false_iff.mpr fun held => ?_
    have bounds := holds_exact.mp held
    unfold Apart at away
    omega

/-! ### The parts of a text -/

theorem ofParts_map : (Unit.ofParts parts).nodes.map (fun n => (n.kind, n.text)) = parts := by
  unfold Unit.ofParts
  rw [List.map_map]
  exact List.zipIdx_map_fst 0 parts

-- The parts of a file are those of the text behind its byte order mark, and the mark.
theorem parse_parts (read : Octets.parts (Octets.placesIn g (shown text)) (shown text) = .ok parts) :
    ∃ marks : List (Kind × String), (∀ m ∈ marks, m = (.code, String.ofList [byteOrderMark])) ∧
      Octets.parse g text = .ok (.ofParts (marks ++ parts)) := by
  unfold shown at read
  unfold Octets.parse
  split
  · rename_i rest marked
    have behind : body text.toList = rest := by rw [marked]; rfl
    rw [behind, ← bytesOf_encode] at read
    rw [read]
    exact ⟨[(.code, String.ofList [byteOrderMark])], fun m member => List.mem_singleton.mp member, rfl⟩
  · rename_i unmarked
    have plain : body text.toList = text.toList := by
      unfold body
      split
      · exact (unmarked _ ‹_›).elim
      · rfl
    rw [plain, ← bytesOf_encode] at read
    rw [read]
    exact ⟨[], List.forall_mem_nil _, rfl⟩

-- Places between whole characters cut a text at the same places whether they are counted in characters or in bytes.
theorem parts_counted (whole : ∀ r ∈ comments ++ usings, r.Whole cs) :
    ∃ cut : List Span, (∀ t ∈ cut, t.range.Within cs.length) ∧
      cut.map (Span.inBytes cs) = tilesFrom (encode cs).length 0 (Octets.spansOf (encode cs) comments usings) ∧
      Octets.parts (comments, usings) (encode cs) = .ok (cut.map (part cs)) := by
  obtain ⟨comments, properComments, rfl⟩ := all_inBytes fun r member => whole r (List.mem_append_left usings member)
  obtain ⟨usings, properUsings, rfl⟩ := all_inBytes fun r member => whole r (List.mem_append_right _ member)
  have proper : ∀ r ∈ comments ++ usings, r.Proper cs.length := by
    intro r member
    rcases List.mem_append.mp member with comment | directive
    · exact properComments r comment
    · exact properUsings r directive
  have within : ∀ r ∈ comments ++ usings, r.Within cs.length := fun r member => (proper r member).within
  refine ⟨tiles (fun _ => (comments, usings)) cs, ?_, ?_, @parts_encoded cs (comments, usings) within⟩
  · intro t member
    exact (tilesFrom_proper (spansOf_proper proper) t member).within
  · rw [spansOf_encoded within]
    exact (tilesFrom_encoded (Nat.zero_le _) (spansOf_within within)).symm

theorem nodes_shown {marks : List (Kind × String)} {cut spans : List Span}
    (mark : ∀ m ∈ marks, m = (.code, String.ofList [byteOrderMark]))
    (all : (cut.map (Span.inBytes cs)).filter (fun s => s.kind ≠ .code) = spans) :
    ((Unit.ofParts (marks ++ cut.map (part cs))).nodes.filter fun n => n.kind ≠ .code).map
        (fun n => (n.kind, encode n.text.toList))
      = spans.map fun s => (s.kind, Octets.slice (encode cs) s.range) := by
  have plain : marks.filter (fun p => p.1 ≠ .code) = [] := by
    refine List.filter_eq_nil_iff.mpr fun m member => ?_
    rw [mark m member]
    decide
  calc ((Unit.ofParts (marks ++ cut.map (part cs))).nodes.filter fun n => n.kind ≠ .code).map
        (fun n => (n.kind, encode n.text.toList))
      = (((Unit.ofParts (marks ++ cut.map (part cs))).nodes.map fun n => (n.kind, n.text)).filter
          fun p => p.1 ≠ .code).map fun p => (p.1, encode p.2.toList) := by
        rw [List.filter_map, List.map_map]
        rfl
    _ = ((cut.map (part cs)).filter fun p => p.1 ≠ .code).map fun p => (p.1, encode p.2.toList) := by
        rw [ofParts_map, List.filter_append, plain, List.nil_append]
    _ = ((cut.map (Span.inBytes cs)).filter fun s => s.kind ≠ .code).map
          fun s => (s.kind, Octets.slice (encode cs) s.range) := by
        rw [List.filter_map, List.filter_map, List.map_map, List.map_map]
        refine List.map_congr_left fun t _ => ?_
        change (t.kind, encode (String.ofList (textOf cs t.range)).toList)
          = (t.kind, Octets.slice (encode cs) (t.range.inBytes cs))
        rw [String.toList_ofList, slice_encoded]
    _ = spans.map fun s => (s.kind, Octets.slice (encode cs) s.range) := by rw [all]

theorem leading_shown {marks : List (Kind × String)} (mark : ∀ m ∈ marks, m = (.code, String.ofList [byteOrderMark]))
    (leads : parts.Pairwise LeadsTo) :
    (Unit.ofParts (marks ++ parts)).leading = (Unit.ofParts (marks ++ parts)).nodes.filter fun n => n.kind.isTrivia := by
  refine leadingFrom_filter (List.pairwise_map.mp ?_)
  have blank : isBlankText (String.ofList [byteOrderMark]).toList = true := by decide
  have marked {m p : Kind × String} (member : m ∈ marks) : LeadsTo m p := by
    rw [mark m member]
    exact fun _ => .inr ⟨rfl, blank⟩
  rw [ofParts_map]
  refine List.pairwise_append.mpr ⟨?_, leads, fun m member _ _ => marked member⟩
  exact List.pairwise_of_forall_mem_list fun m member _ _ => marked member

-- No comment and no directive is lost or misplaced. What they own never overlaps, so all spans stay; there is one
-- for each directive and one for each run of documentation lines, and what a file shows besides code are these
-- spans. Where the comments stand at the head, they are the leading ones.
theorem spans_kept (placed : Placed bytes comments usings) :
    Kept bytes comments usings ∧
    ∀ (g : Octets.Grammar) (text : String), shown text = bytes → Octets.placesIn g bytes = (comments, usings) →
      (∀ r ∈ comments ++ usings, r.Whole (body text.toList)) →
      ∃ u, Octets.parse g text = .ok u ∧
        (u.nodes.filter fun n => n.kind ≠ .code).map (fun n => (n.kind, encode n.text.toList))
          = (Octets.spansOf bytes comments usings).map (fun s => (s.kind, Octets.slice bytes s.range)) ∧
        (BlankHead (body text.toList) comments usings → u.leading = u.nodes.filter fun n => n.kind.isTrivia) := by
  refine ⟨placed.kept, ?_⟩
  rintro g text rfl places whole
  obtain ⟨cut, inside, counted, read⟩ := parts_counted whole
  have read' : Octets.parts (Octets.placesIn g (shown text)) (shown text) = .ok (cut.map (part (body text.toList))) := by
    rw [places]
    exact read
  obtain ⟨marks, mark, parsed⟩ := parse_parts read'
  refine ⟨_, parsed, nodes_shown mark ?_, fun head => leading_shown mark ?_⟩
  · rw [counted]
    exact placed.kept.all
  · exact List.pairwise_map.mpr (cut_leads placed head inside counted)

/-! ### A file with documentation in two runs -/

def placedText : String := "\uFEFF// é\r\n  /// a\r\n\t/// b  \r\n/* x */ /// c\nusing A;using B; // z\n"

def placedComments : List Range := [⟨0, 5⟩, ⟨9, 14⟩, ⟨17, 24⟩, ⟨26, 33⟩, ⟨34, 39⟩]

def placedUsings : List Range := [⟨40, 48⟩, ⟨48, 56⟩]

def placedGrammar : Octets.Grammar := fun bytes =>
  .node .other ⟨0, bytes.length⟩ ((placedComments.map fun r => .node .comment r [])
    ++ placedUsings.map fun r => .node .directive r [])

instance : Decidable (OnCharacter cs j) := inferInstanceAs (Decidable (∃ k, k ≤ cs.length ∧ j = offset cs k))

instance : Decidable (r.Whole cs) :=
  decidable_of_iff (r.start < r.stop ∧ OnCharacter cs r.start ∧ OnCharacter cs r.stop)
    ⟨fun ⟨filled, start, stop⟩ => ⟨filled, start, stop⟩, fun whole => ⟨whole.some, whole.start, whole.stop⟩⟩

theorem spans_kept_head :
    Placed (shown placedText) placedComments placedUsings ∧ Kept (shown placedText) placedComments placedUsings ∧
    ∃ u, Octets.parse placedGrammar placedText = .ok u ∧
      (u.nodes.filter fun n => n.kind ≠ .code).map (fun n => (n.kind, encode n.text.toList))
        = (Octets.spansOf (shown placedText) placedComments placedUsings).map
          (fun s => (s.kind, Octets.slice (shown placedText) s.range)) ∧
      u.leading = u.nodes.filter fun n => n.kind.isTrivia := by
  have placed : Placed (shown placedText) placedComments placedUsings := by decide +kernel
  have whole : ∀ r ∈ placedComments ++ placedUsings, r.Whole (body placedText.toList) := by
    decide +kernel
  have head : BlankHead (body placedText.toList) placedComments placedUsings := by decide +kernel
  obtain ⟨kept, cut⟩ := spans_kept placed
  obtain ⟨u, parsed, shows, leads⟩ := cut placedGrammar placedText rfl (by decide +kernel) whole
  exact ⟨placed, kept, u, parsed, shows, leads head⟩

/-! ### Lines that end with a carriage return alone -/

-- A line break from one place to another; `lone` says whether a carriage return by itself is one.
def LineBreak (lone : Bool) (cs : List Char) (i j : Nat) : Prop :=
  Breaks cs i j ∨ (lone = true ∧ j = i + 1 ∧ cs[i]? = some '\r' ∧ cs[j]? ≠ some '\n')

-- Two places that stand alone on lines next to each other.
structure Beside (lone : Bool) (cs : List Char) (r s : Range) : Prop where
  opens : ∃ i, i ≤ r.start ∧ Blanks cs i r.start ∧ (i = 0 ∨ ∃ h, LineBreak lone cs h i)
  next : ∃ i j, r.stop ≤ i ∧ Blanks cs r.stop i ∧ LineBreak lone cs i j ∧ j ≤ s.start ∧ Blanks cs j s.start
  closes : ∃ i, s.stop ≤ i ∧ Blanks cs s.stop i ∧ (i = cs.length ∨ ∃ j, LineBreak lone cs i j)

-- Three documentation lines, with a carriage return behind the second one.
def returned : Octets.Bytes := encode "/// a\n/// b\r/// c\nclass A {}\n".toList

def lineA : Range := ⟨0, 5⟩
def lineB : Range := ⟨6, 11⟩
def lineC : Range := ⟨12, 17⟩

theorem returned_spans : (Octets.spansOf returned [lineA, lineB, lineC] []).filter (fun s => s.kind.isTrivia)
    = [⟨⟨0, 11⟩, .lineDoc⟩, ⟨⟨12, 17⟩, .lineDoc⟩] := by decide +kernel

theorem blanks_none (i : Nat) : Blanks cs i i := fun _ above below => absurd below (Nat.not_lt_of_le above)

-- The second line shares its line with the third one unless a carriage return ends it.
theorem lineB_shared : ¬Beside false (letters returned) lineA lineB := by
  rintro ⟨_, _, i, after, blanks, ends⟩
  have here : (letters returned)[11]? = some '\r' := by decide
  have reached : i ≤ 11 := blanks_stop_le blanks here rfl (Nat.le_refl _)
  obtain rfl : i = 11 := Nat.le_antisymm reached after
  have behind : (letters returned)[12]? = some '/' := by decide
  rcases ends with whole | ⟨j, (⟨_, feed⟩ | ⟨_, _, feed⟩) | ⟨impossible, _⟩⟩
  · exact absurd whole (by decide)
  · rw [here] at feed
    cases feed
  · rw [behind] at feed
    cases feed
  · cases impossible

theorem lineC_beside : Beside true (letters returned) lineB lineC := by
  refine ⟨⟨6, Nat.le_refl _, blanks_none _, .inr ⟨5, .inl (.inl ⟨rfl, by decide⟩)⟩⟩, ⟨11, 12, Nat.le_refl _, blanks_none _,
    .inr ⟨rfl, rfl, by decide, by decide⟩, Nat.le_refl _, blanks_none _⟩, ⟨17, Nat.le_refl _, blanks_none _, .inr ⟨18,
      .inl (.inl ⟨rfl, by decide⟩)⟩⟩⟩

-- The runs of the three lines are none of their spans where the first line is a run of its own, or all are one.
theorem returned_unmatched (cut : link lineA lineB = false ∨ link lineB lineC = true) :
    ¬List.Forall₂ (RunSpan (Octets.commentSpan returned)) ([lineA, lineB, lineC].splitBy link)
      [⟨⟨0, 11⟩, .lineDoc⟩, ⟨⟨12, 17⟩, .lineDoc⟩] := by
  intro runs
  cases begins : link lineA lineB with
  | false =>
    have parted : [lineA, lineB, lineC].splitBy link = [lineA] :: [lineB, lineC].splitBy link :=
      List.splitBy_append_cons (l := [lineA]) [lineC] (by simpa using begins)
    rw [parted] at runs
    have stops := runSpan_alone (List.forall₂_cons.mp runs).1
    exact absurd stops (by decide +kernel)
  | true =>
    have linked := cut.resolve_left (by rw [begins]; nofun)
    have whole : [lineA, lineB, lineC].splitBy link = [[lineA, lineB, lineC]] :=
      List.splitBy_of_isChain (List.cons_ne_nil _ _) (by simp [begins, linked])
    rw [whole] at runs
    exact absurd runs.length_eq (by decide)

-- Documentation is not merged by lines where a carriage return stands alone, whether it ends a line or not: the
-- first two of the three lines are merged and the third one is not. What a place that begins with a carriage
-- return owns can overlap what is before it, and a place that ends inside of a character is no text.
theorem spans_not_by_lines :
    (Placed returned [lineA, lineB, lineC] [] ∧ ∀ (lone : Bool) (link : Range → Range → Bool),
      (∀ r s, link r s = true ↔
        IsDocumentation returned r ∧ IsDocumentation returned s ∧ Beside lone (letters returned) r s) →
      ¬List.Forall₂ (RunSpan (Octets.commentSpan returned)) ([lineA, lineB, lineC].splitBy link)
        ((Octets.spansOf returned [lineA, lineB, lineC] []).filter fun s => s.kind.isTrivia)) ∧
    ((∀ r ∈ [Range.mk 0 1, ⟨1, 2⟩], r.start < r.stop ∧ ∀ i, r.start ≤ i → i < r.stop →
        ∀ c ∈ (letters [0x78, 0x0D, 0x0A])[i]?, isIndent c = false ∧ c ≠ '\n') ∧
      ¬(Octets.spansOf [0x78, 0x0D, 0x0A] [] [⟨0, 1⟩, ⟨1, 2⟩]).Pairwise fun a b => a.range.stop ≤ b.range.start) ∧
    (Placed [0xC3, 0xA9] [] [⟨0, 1⟩] ∧ ∀ parts, Octets.parts ([], [⟨0, 1⟩]) [0xC3, 0xA9] ≠ .ok parts) := by
  refine ⟨⟨by decide +kernel, fun lone link exact_ => ?_⟩, ⟨?_, by decide +kernel⟩, by decide +kernel, fun parts read => ?_⟩
  · rw [returned_spans]
    apply returned_unmatched
    cases lone with
    | false => exact .inl (Bool.eq_false_iff.mpr fun linked => lineB_shared ((exact_ _ _).mp linked).2.2)
    | true => exact .inr ((exact_ _ _).mpr ⟨by decide +kernel, by decide +kernel, lineC_beside⟩)
  · simp only [List.forall_mem_cons, List.not_mem_nil, false_implies, implies_true, and_true]
    refine ⟨⟨by decide, fun i above below => ?_⟩, by decide, fun i above below => ?_⟩
    · obtain rfl : i = 0 := by omega
      intro c here
      cases here
      decide
    · obtain rfl : i = 1 := by omega
      intro c here
      cases here
      decide
  · have failed : (Octets.parts ([], [⟨0, 1⟩]) [0xC3, 0xA9]).toBool = false := by decide +kernel
    rw [read] at failed
    cases failed

end InlineProject.Source
